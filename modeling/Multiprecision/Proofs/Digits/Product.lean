import Mathlib
import Multiprecision.Digits.Product
import Multiprecision.Proofs.Digits
import Multiprecision.Proofs.Polynomial

/-!
# Multiprecision.Proofs.Digits.Product

Schoolbook products and squares are exact, and their words have room:

* `value_product`, `value_square` — digits that are returned write the product;
* `product_isSome`, `square_isSome` — operands of at most `maxTerms` digits
  never outgrow a double word.

Digits are the coefficients of a polynomial whose value at the base is the
value of the digits; a column is a coefficient of a product.  The carry into
a column is at most `maxTerms · base`, which every column keeps.
-/

namespace Multiprecision.Digits

open Coefficients Finset

/-! ## Digits as coefficients -/

/-- The digits as numbers. -/
def numbers (ds : List Digit) : List Nat := ds.map UInt32.toNat

@[simp] theorem length_numbers (ds : List Digit) : (numbers ds).length = ds.length :=
  List.length_map ..

theorem numbers_drop (n : Nat) (ds : List Digit) : numbers (ds.drop n) = (numbers ds).drop n :=
  List.map_drop ..

theorem numbers_take (n : Nat) (ds : List Digit) : numbers (ds.take n) = (numbers ds).take n :=
  List.map_take ..

theorem numbers_reverse (ds : List Digit) : numbers ds.reverse = (numbers ds).reverse :=
  List.map_reverse ..

/-- A number is its polynomial of digits at the base. -/
theorem value_eq_eval (ds : List Digit) : value ds = (polynomial (numbers ds)).eval base := by
  induction ds with
  | nil => simp [numbers]
  | cons d ds ih =>
    rw [value_cons, ih]
    exact (eval_polynomial_cons ..).symm

/-- No digit is above the largest one. -/
theorem le_of_mem_numbers {ds : List Digit} (h : InRange ds) : ∀ n ∈ numbers ds, n ≤ base - 1 := by
  intro n hn
  obtain ⟨d, hd, rfl⟩ := List.mem_map.mp hn
  exact Nat.le_sub_one_of_lt (h d hd)

theorem InRange.reverse {ds : List Digit} (h : InRange ds) : InRange ds.reverse :=
  fun d hd => h d (List.mem_reverse.mp hd)

/-! ## Sums in double words -/

/-- A checked sum is exact. -/
theorem toNat_addWide {a b s : UInt64} (h : addWide a b = some s) :
    s.toNat = a.toNat + b.toNat := by
  rw [addWide] at h
  split at h
  · contradiction
  · next hge =>
    rw [Option.some.injEq] at h
    subst h
    rw [UInt64.lt_iff_toNat_lt, UInt64.toNat_add] at hge
    rw [UInt64.toNat_add]
    have ha := a.toNat_lt
    have hb := b.toNat_lt
    omega

/-- A sum that fits passes the check. -/
theorem addWide_of_lt {a b : UInt64} (h : a.toNat + b.toNat < 2 ^ 64) :
    ∃ s, addWide a b = some s ∧ s.toNat = a.toNat + b.toNat := by
  have hsum : (a + b).toNat = a.toNat + b.toNat := by
    rw [UInt64.toNat_add]
    exact Nat.mod_eq_of_lt h
  refine ⟨a + b, ?_, hsum⟩
  rw [addWide, if_neg]
  rw [UInt64.lt_iff_toNat_lt, hsum]
  omega

/-- Below the limit there is room for one more product of digits in a double
word. -/
theorem toNat_foldLimit : foldLimit.toNat = 2 ^ 64 - 1 - (base - 1) * (base - 1) := by decide

/-- A product of digits is no larger than that of the largest ones. -/
theorem mul_digits_le {a b : Digit} (ha : a.toNat < base) (hb : b.toNat < base) :
    a.toNat * b.toNat ≤ (base - 1) * (base - 1) :=
  Nat.mul_le_mul (by omega) (by omega)

/-- A product of digits fits a double word. -/
theorem toNat_mul_digits {a b : Digit} (ha : a.toNat < base) (hb : b.toNat < base) :
    (a.toUInt64 * b.toUInt64).toNat = a.toNat * b.toNat := by
  rw [UInt64.toNat_mul, UInt32.toNat_toUInt64, UInt32.toNat_toUInt64]
  exact Nat.mod_eq_of_lt ((mul_digits_le ha hb).trans_lt (by decide))

/-! ## Columns -/

/-- A column that is returned is exact. -/
theorem accumulate_eq {as bs : List Digit} (ha : InRange as) (hb : InRange bs)
    {low high l h : UInt64} (hsome : accumulate as bs low high = some (l, h)) :
    l.toNat + base * h.toNat =
      low.toNat + base * high.toNat + dot (numbers as) (numbers bs) := by
  induction as generalizing bs low high with
  | nil =>
    simp only [accumulate, Option.some.injEq, Prod.mk.injEq] at hsome
    simp [hsome, numbers, dot]
  | cons a as ih =>
    cases bs with
    | nil =>
      simp only [accumulate, Option.some.injEq, Prod.mk.injEq] at hsome
      simp [hsome, numbers, dot]
    | cons b bs =>
      obtain ⟨ha0, has⟩ := inRange_cons.mp ha
      obtain ⟨hb0, hbs⟩ := inRange_cons.mp hb
      rw [accumulate] at hsome
      obtain ⟨sum, hsum, hrest⟩ := Option.bind_eq_some_iff.mp hsome
      have hsum := toNat_addWide hsum
      rw [toNat_mul_digits ha0 hb0] at hsum
      have hdot : dot (numbers (a :: as)) (numbers (b :: bs)) =
          a.toNat * b.toNat + dot (numbers as) (numbers bs) := rfl
      split at hrest
      · obtain ⟨up, hup, hrest⟩ := Option.bind_eq_some_iff.mp hrest
        have hup := toNat_addWide hup
        have hdm := Nat.mod_add_div sum.toNat base
        rw [toNat_wide_shiftRight_width] at hup
        rw [ih has hbs hrest, hdot, toNat_and_wideMask, hup, Nat.mul_add]
        omega
      · rw [ih has hbs hrest, hdot, hsum]
        omega

/-- A column fits if its low word starts below the limit and its value would
not carry past the high word. -/
theorem accumulate_isSome {as bs : List Digit} (ha : InRange as) (hb : InRange bs)
    (low high : UInt64) (hlow : low.toNat < foldLimit.toNat)
    (hfits : low.toNat + base * high.toNat + dot (numbers as) (numbers bs) < base * 2 ^ 64) :
    ∃ l h, accumulate as bs low high = some (l, h) ∧ l.toNat < foldLimit.toNat := by
  induction as generalizing bs low high with
  | nil => exact ⟨low, high, by simp [accumulate], hlow⟩
  | cons a as ih =>
    cases bs with
    | nil => exact ⟨low, high, by simp [accumulate], hlow⟩
    | cons b bs =>
      obtain ⟨ha0, has⟩ := inRange_cons.mp ha
      obtain ⟨hb0, hbs⟩ := inRange_cons.mp hb
      have hle := mul_digits_le ha0 hb0
      have hlimit := toNat_foldLimit
      have hbase : base = 1073741824 := rfl
      have hdot : dot (numbers (a :: as)) (numbers (b :: bs)) =
          a.toNat * b.toNat + dot (numbers as) (numbers bs) := rfl
      obtain ⟨sum, hsome, hsum⟩ := addWide_of_lt (a := low) (b := a.toUInt64 * b.toUInt64)
        (by rw [toNat_mul_digits ha0 hb0]; omega)
      rw [toNat_mul_digits ha0 hb0] at hsum
      have hdm := Nat.mod_add_div sum.toNat base
      simp only [accumulate, hsome, Option.bind_eq_bind, Option.bind_some]
      split
      · obtain ⟨up, hup, hupeq⟩ := addWide_of_lt (a := high) (b := sum >>> 30) (by
          rw [toNat_wide_shiftRight_width]
          apply Nat.lt_of_mul_lt_mul_left (a := base)
          rw [Nat.mul_add]
          omega)
        rw [toNat_wide_shiftRight_width] at hupeq
        rw [hup, Option.bind_some]
        apply ih has hbs
        · rw [toNat_and_wideMask]
          exact (mod_base_lt _).trans (by decide)
        · rw [toNat_and_wideMask, hupeq, Nat.mul_add]
          omega
      · next hlt =>
        apply ih has hbs
        · rwa [UInt64.le_iff_toNat_le, not_le] at hlt
        · omega

/-! ## Products -/

/-- The longest operands whose columns surely fit. -/
def maxTerms : Nat := 2 ^ 33

/-- Column `c` of the product of two digit lists. -/
noncomputable def column (as bs : List Digit) (c : Nat) : Nat :=
  (polynomial (numbers as) * polynomial (numbers bs)).coeff c

/-- The pairs that are added up are the terms of the column. -/
theorem dot_productColumn {as bs : List Digit} (hbs : bs ≠ []) (c : Nat) :
    dot (numbers (as.drop (c + 1 - bs.length)))
      (numbers (bs.reverse.drop (bs.length - 1 - c))) = column as bs c := by
  have hne : numbers bs ≠ [] := by simpa [numbers] using hbs
  rw [column, coeff_mul_eq_dot hne, numbers_drop, numbers_drop, numbers_reverse, length_numbers]

/-- A column has no more terms than the operands have digits. -/
theorem column_le {as bs : List Digit} (ha : InRange as) (hb : InRange bs) (hbs : bs ≠ [])
    (hterms : min as.length bs.length ≤ maxTerms) (c : Nat) :
    column as bs c ≤ maxTerms * ((base - 1) * (base - 1)) := by
  rw [← dot_productColumn hbs]
  refine (dot_le (le_of_mem_numbers (ha.drop _)) (le_of_mem_numbers (hb.reverse.drop _))).trans ?_
  apply Nat.mul_le_mul_right
  simp only [length_numbers, List.length_drop, List.length_reverse]
  omega

/-- If no word overflows, the digits write the columns, each at its place, and
the carry. -/
theorem productColumns_spec {as bs : List Digit} (ha : InRange as) (hb : InRange bs)
    (hbs : bs ≠ []) {c todo : Nat} {carry : UInt64} {ds : List Digit}
    (hsome : productColumns as bs.reverse bs.length c todo carry = some ds) :
    value ds = carry.toNat + ∑ j ∈ range todo, column as bs (c + j) * base ^ j ∧
      InRange ds := by
  induction todo generalizing c carry ds with
  | zero =>
    simp only [productColumns, Option.some.injEq] at hsome
    simp [← hsome]
  | succ todo ih =>
    rw [productColumns] at hsome
    obtain ⟨⟨low, high⟩, hcolumn, hrest⟩ := Option.bind_eq_some_iff.mp hsome
    obtain ⟨out, hout, hrest⟩ := Option.bind_eq_some_iff.mp hrest
    obtain ⟨es, hes, hds⟩ := Option.bind_eq_some_iff.mp hrest
    obtain rfl : _ :: es = ds := Option.some.inj hds
    obtain ⟨hvalue, hrange⟩ := ih hes
    have hcolumn := accumulate_eq (ha.drop _) (hb.reverse.drop _) hcolumn
    rw [dot_productColumn hbs, UInt64.toNat_zero, Nat.mul_zero, Nat.add_zero] at hcolumn
    have hout := toNat_addWide hout
    rw [toNat_wide_shiftRight_width] at hout
    have hdm := Nat.mod_add_div low.toNat base
    constructor
    · have hshift : ∑ j ∈ range todo, column as bs (c + (j + 1)) * base ^ (j + 1) =
          base * ∑ j ∈ range todo, column as bs (c + 1 + j) * base ^ j := by
        rw [mul_sum]
        refine sum_congr rfl fun j _ => ?_
        rw [show c + (j + 1) = c + 1 + j by omega, pow_succ]
        ring
      rw [value_cons, toNat_and_wideMask_toUInt32, hvalue, hout, sum_range_succ', hshift]
      simp only [Nat.add_zero, pow_zero, Nat.mul_one, Nat.mul_add]
      omega
    · refine inRange_cons.mpr ⟨?_, hrange⟩
      rw [toNat_and_wideMask_toUInt32]
      exact mod_base_lt _

/-- The carry out of a column keeps the bound of the carry into it. -/
theorem carry_out_le {carry column out : Nat} (hcarry : carry ≤ maxTerms * base)
    (hcolumn : column ≤ maxTerms * ((base - 1) * (base - 1)))
    (hout : base * out ≤ carry + column) : out ≤ maxTerms * base := by
  apply Nat.le_of_mul_le_mul_left (c := base) _ base_pos
  calc
    base * out ≤ maxTerms * base + maxTerms * ((base - 1) * (base - 1)) :=
      hout.trans (Nat.add_le_add hcarry hcolumn)
    _ ≤ base * (maxTerms * base) := by decide

/-- Operands of which one is short enough overflow no word. -/
theorem productColumns_isSome {as bs : List Digit} (ha : InRange as) (hb : InRange bs)
    (hbs : bs ≠ []) (hterms : min as.length bs.length ≤ maxTerms) (c todo : Nat)
    {carry : UInt64} (hcarry : carry.toNat ≤ maxTerms * base) :
    ∃ ds, productColumns as bs.reverse bs.length c todo carry = some ds := by
  induction todo generalizing c carry with
  | zero => exact ⟨_, rfl⟩
  | succ todo ih =>
    have hcolumn := column_le ha hb hbs hterms c
    obtain ⟨low, high, hsome, hlow⟩ := accumulate_isSome (ha.drop (c + 1 - bs.length))
      (hb.reverse.drop (bs.length - 1 - c)) carry 0
      (hcarry.trans_lt (by decide)) (by
        rw [dot_productColumn hbs, UInt64.toNat_zero, Nat.mul_zero, Nat.add_zero]
        exact (Nat.add_le_add hcarry hcolumn).trans_lt (by decide))
    have heq := accumulate_eq (ha.drop _) (hb.reverse.drop _) hsome
    rw [dot_productColumn hbs, UInt64.toNat_zero, Nat.mul_zero, Nat.add_zero] at heq
    have hdm := Nat.mod_add_div low.toNat base
    have hout : low.toNat / base + high.toNat ≤ maxTerms * base :=
      carry_out_le hcarry hcolumn (by rw [Nat.mul_add]; omega)
    obtain ⟨out, hadd, houteq⟩ := addWide_of_lt (a := low >>> 30) (b := high) (by
      rw [toNat_wide_shiftRight_width]
      exact hout.trans_lt (by decide))
    rw [toNat_wide_shiftRight_width] at houteq
    rw [← houteq] at hout
    obtain ⟨ds, hds⟩ := ih (c + 1) hout
    refine ⟨(low &&& wideMask).toUInt32 :: ds, ?_⟩
    simp [productColumns, productColumn, hsome, hadd, hds]

/-- A product that is returned is exact. -/
theorem value_product {as bs ds : List Digit} (ha : InRange as) (hb : InRange bs)
    (hsome : product as bs = some ds) : value ds = value as * value bs ∧ InRange ds := by
  rw [product] at hsome
  split at hsome
  · next hempty =>
    rw [Bool.or_eq_true, List.isEmpty_iff, List.isEmpty_iff] at hempty
    obtain rfl : [] = ds := Option.some.inj hsome
    rcases hempty with rfl | rfl <;> simp
  · next hempty =>
    rw [Bool.or_eq_true, List.isEmpty_iff, List.isEmpty_iff, not_or] at hempty
    obtain ⟨es, hes, hds⟩ := Option.bind_eq_some_iff.mp hsome
    obtain rfl : padTo (as.length + bs.length) es = ds := Option.some.inj hds
    obtain ⟨hvalue, hrange⟩ := productColumns_spec ha hb hempty.2 hes
    refine ⟨?_, inRange_padTo.mpr hrange⟩
    have hpos := List.length_pos_iff.mpr hempty.1
    rw [value_padTo, hvalue, value_eq_eval as, value_eq_eval bs,
      eval_mul_eval base (n := as.length + bs.length - 1) (by simp only [length_numbers]; omega)]
    simp [column]

/-- Operands of at most `maxTerms` digits have a product. -/
theorem product_isSome {as bs : List Digit} (ha : InRange as) (hb : InRange bs)
    (hterms : min as.length bs.length ≤ maxTerms) : ∃ ds, product as bs = some ds := by
  rw [product]
  split
  · exact ⟨_, rfl⟩
  · next hempty =>
    rw [Bool.or_eq_true, List.isEmpty_iff, List.isEmpty_iff, not_or] at hempty
    obtain ⟨es, hes⟩ := productColumns_isSome ha hb hempty.2 hterms 0
      (as.length + bs.length - 1) (show (0 : UInt64).toNat ≤ _ from Nat.zero_le _)
    exact ⟨padTo (as.length + bs.length) es, by simp [hes]⟩

/-! ## Squares -/

/-- The digit in a place, as a number. -/
theorem toNat_headD_drop (ds : List Digit) (i : Nat) :
    ((ds.drop i).headD 0).toNat = (numbers ds).getD i 0 := by
  rw [List.headD_eq_head?_getD, List.head?_drop, List.getD_eq_getElem?_getD, numbers,
    List.getElem?_map]
  cases ds[i]? <;> rfl

/-- Every other column of a square has a middle term, the square of a digit. -/
theorem toNat_diagonal {ds : List Digit} (h : InRange ds) (c : Nat) :
    (diagonal ds c).toNat =
      if c % 2 = 0 then (numbers ds).getD (c / 2) 0 * (numbers ds).getD (c / 2) 0 else 0 := by
  rw [diagonal]
  split
  · have hd := headD_drop_lt h (c / 2)
    rw [toNat_mul_digits hd hd, toNat_headD_drop]
  · rfl

theorem diagonal_le {ds : List Digit} (h : InRange ds) (c : Nat) :
    (diagonal ds c).toNat ≤ (base - 1) * (base - 1) := by
  rw [diagonal]
  split
  · have hd := headD_drop_lt h (c / 2)
    rw [toNat_mul_digits hd hd]
    exact mul_digits_le hd hd
  · exact Nat.zero_le _

/-- The terms of column `c` below its middle. -/
def halfColumn (ds : List Digit) (c : Nat) : Nat :=
  dot (numbers ((ds.drop (c + 1 - ds.length)).take ((c + 1 - 2 * (c + 1 - ds.length)) / 2)))
    (numbers (ds.reverse.drop (ds.length - 1 - c)))

/-- A column of a square is twice its half and the middle term. -/
theorem column_self {ds : List Digit} (h : InRange ds) (hne : ds ≠ []) {c : Nat}
    (hc : c < 2 * ds.length - 1) :
    column ds ds c = 2 * halfColumn ds c + (diagonal ds c).toNat := by
  have hne' : numbers ds ≠ [] := by simpa [numbers] using hne
  rw [column, coeff_mul_self_eq_dot hne' (by simpa using hc) rfl, toNat_diagonal h, halfColumn,
    numbers_take, numbers_drop, numbers_drop, numbers_reverse, length_numbers]

/-- The two words of a column of a square add up its terms below the middle. -/
theorem squareColumn_eq {ds : List Digit} (h : InRange ds) {c : Nat} {low high : UInt64}
    (hsome : squareColumn ds ds.reverse ds.length c = some (low, high)) :
    low.toNat + base * high.toNat = halfColumn ds c := by
  have heq := accumulate_eq ((h.drop _).take _) (h.reverse.drop _) hsome
  simpa [halfColumn] using heq

/-- If no word overflows, the digits write the columns of the square. -/
theorem squareColumns_spec {ds : List Digit} (h : InRange ds) (hne : ds ≠ []) {c todo : Nat}
    (hc : c + todo ≤ 2 * ds.length - 1) {carry : UInt64} {es : List Digit}
    (hsome : squareColumns ds ds.reverse ds.length c todo carry = some es) :
    value es = carry.toNat + ∑ j ∈ range todo, column ds ds (c + j) * base ^ j ∧
      InRange es := by
  induction todo generalizing c carry es with
  | zero =>
    simp only [squareColumns, Option.some.injEq] at hsome
    simp [← hsome]
  | succ todo ih =>
    rw [squareColumns] at hsome
    obtain ⟨⟨low, high⟩, hcolumn, hrest⟩ := Option.bind_eq_some_iff.mp hsome
    obtain ⟨high', hhigh, hrest⟩ := Option.bind_eq_some_iff.mp hrest
    obtain ⟨start, hstart, hrest⟩ := Option.bind_eq_some_iff.mp hrest
    obtain ⟨total, htotal, hrest⟩ := Option.bind_eq_some_iff.mp hrest
    obtain ⟨twice, htwice, hrest⟩ := Option.bind_eq_some_iff.mp hrest
    obtain ⟨out, hout, hrest⟩ := Option.bind_eq_some_iff.mp hrest
    obtain ⟨rest, hes, hds⟩ := Option.bind_eq_some_iff.mp hrest
    obtain rfl : _ :: rest = es := Option.some.inj hds
    obtain ⟨hvalue, hrange⟩ := ih (by omega) hes
    have hcolumn := squareColumn_eq h hcolumn
    have hlow : ((low &&& wideMask) + (low &&& wideMask)).toNat = 2 * (low.toNat % base) := by
      have hlt := mod_base_lt low.toNat
      have hbase : base = 1073741824 := rfl
      rw [UInt64.toNat_add, toNat_and_wideMask]
      omega
    have hhigh := toNat_addWide hhigh
    have hstart := toNat_addWide hstart
    have htotal := toNat_addWide htotal
    have htwice := toNat_addWide htwice
    have hout := toNat_addWide hout
    rw [toNat_wide_shiftRight_width] at hhigh hout
    rw [hlow] at htotal
    have hdm := Nat.mod_add_div low.toNat base
    have hdm' := Nat.mod_add_div total.toNat base
    constructor
    · have hshift : ∑ j ∈ range todo, column ds ds (c + (j + 1)) * base ^ (j + 1) =
          base * ∑ j ∈ range todo, column ds ds (c + 1 + j) * base ^ j := by
        rw [mul_sum]
        refine sum_congr rfl fun j _ => ?_
        rw [show c + (j + 1) = c + 1 + j by omega, pow_succ]
        ring
      have hself := column_self h hne (c := c) (by omega)
      rw [value_cons, toNat_and_wideMask_toUInt32, hvalue, hout, sum_range_succ', hshift]
      simp only [Nat.add_zero, pow_zero, Nat.mul_one, hself]
      linear_combination hdm' + htotal + hstart + base * htwice + 2 * base * hhigh + 2 * hdm + 2 * hcolumn
    · refine inRange_cons.mpr ⟨?_, hrange⟩
      rw [toNat_and_wideMask_toUInt32]
      exact mod_base_lt _

/-- The square of a number that is short enough overflows no word. -/
theorem squareColumns_isSome {ds : List Digit} (h : InRange ds) (hne : ds ≠ [])
    (hterms : ds.length ≤ maxTerms) (c todo : Nat) (hc : c + todo ≤ 2 * ds.length - 1)
    {carry : UInt64} (hcarry : carry.toNat ≤ maxTerms * base) :
    ∃ es, squareColumns ds ds.reverse ds.length c todo carry = some es := by
  induction todo generalizing c carry with
  | zero => exact ⟨_, rfl⟩
  | succ todo ih =>
    have hcolumn := column_le h h hne ((min_le_left _ _).trans hterms) c
    have hself := column_self h hne (c := c) (by omega)
    have hdiagonal := diagonal_le h c
    obtain ⟨low, high, hsome, -⟩ := accumulate_isSome
      ((h.drop (c + 1 - ds.length)).take ((c + 1 - 2 * (c + 1 - ds.length)) / 2))
      (h.reverse.drop (ds.length - 1 - c)) 0 0 (by decide) (by
        rw [UInt64.toNat_zero, Nat.mul_zero, Nat.zero_add, ← halfColumn]
        have hlimit : maxTerms * ((base - 1) * (base - 1)) < base * 2 ^ 64 := by decide
        omega)
    have heq : low.toNat + base * high.toNat = halfColumn ds c := squareColumn_eq h hsome
    have hdm := Nat.mod_add_div low.toNat base
    have hmod := mod_base_lt low.toNat
    have hlow : ((low &&& wideMask) + (low &&& wideMask)).toNat = 2 * (low.toNat % base) := by
      have hbase : base = 1073741824 := rfl
      rw [UInt64.toNat_add, toNat_and_wideMask]
      omega
    have hup : 2 * (high.toNat + low.toNat / base) ≤ maxTerms * base :=
      carry_out_le hcarry hcolumn (by rw [Nat.mul_left_comm, Nat.mul_add]; omega)
    have hroom : maxTerms * base + (base - 1) * (base - 1) + 2 * base < 2 ^ 64 := by decide
    obtain ⟨high', hhigh, hhigheq⟩ := addWide_of_lt (a := high) (b := low >>> 30) (by
      rw [toNat_wide_shiftRight_width]
      omega)
    obtain ⟨start, hstart, hstarteq⟩ := addWide_of_lt (a := carry) (b := diagonal ds c)
      (by omega)
    obtain ⟨total, htotal, htotaleq⟩ := addWide_of_lt (a := start)
      (b := (low &&& wideMask) + (low &&& wideMask)) (by rw [hlow]; omega)
    rw [toNat_wide_shiftRight_width] at hhigheq
    rw [hlow] at htotaleq
    obtain ⟨twice, htwice, htwiceeq⟩ := addWide_of_lt (a := high') (b := high') (by omega)
    have hdm' := Nat.mod_add_div total.toNat base
    have hout : total.toNat / base + twice.toNat ≤ maxTerms * base := by
      refine carry_out_le hcarry hcolumn ?_
      rw [hself, htwiceeq, hhigheq, Nat.mul_add]
      have hhalf : base * (high.toNat + low.toNat / base + (high.toNat + low.toNat / base)) +
          2 * (low.toNat % base) = 2 * halfColumn ds c := by
        rw [← heq]
        linarith
      omega
    obtain ⟨out, hadd, houteq⟩ := addWide_of_lt (a := total >>> 30) (b := twice) (by
      rw [toNat_wide_shiftRight_width]
      exact hout.trans_lt (by decide))
    rw [toNat_wide_shiftRight_width] at houteq
    rw [← houteq] at hout
    obtain ⟨es, hes⟩ := ih (c + 1) (by omega) hout
    refine ⟨(total &&& wideMask).toUInt32 :: es, ?_⟩
    simp [squareColumns, squareColumn, hsome, hhigh, hstart, htotal, htwice, hadd, hes]

/-- A square that is returned is exact. -/
theorem value_square {ds es : List Digit} (h : InRange ds) (hsome : square ds = some es) :
    value es = value ds * value ds ∧ InRange es := by
  rw [square] at hsome
  split at hsome
  · next hempty =>
    obtain rfl := List.isEmpty_iff.mp hempty
    obtain rfl : [] = es := Option.some.inj hsome
    simp
  · next hempty =>
    rw [List.isEmpty_iff] at hempty
    obtain ⟨rest, hrest, hes⟩ := Option.bind_eq_some_iff.mp hsome
    obtain rfl : padTo (2 * ds.length) rest = es := Option.some.inj hes
    obtain ⟨hvalue, hrange⟩ := squareColumns_spec h hempty (by omega) hrest
    refine ⟨?_, inRange_padTo.mpr hrange⟩
    rw [value_padTo, hvalue, value_eq_eval ds,
      eval_mul_eval base (n := 2 * ds.length - 1) (by simp only [length_numbers]; omega)]
    simp [column]

/-- An operand of at most `maxTerms` digits has a square. -/
theorem square_isSome {ds : List Digit} (h : InRange ds) (hterms : ds.length ≤ maxTerms) :
    ∃ es, square ds = some es := by
  rw [square]
  split
  · exact ⟨_, rfl⟩
  · next hempty =>
    rw [List.isEmpty_iff] at hempty
    obtain ⟨es, hes⟩ := squareColumns_isSome h hempty hterms 0
      (2 * ds.length - 1) (by omega) (show (0 : UInt64).toNat ≤ _ from Nat.zero_le _)
    exact ⟨padTo (2 * ds.length) es, by simp [hes]⟩

end Multiprecision.Digits
