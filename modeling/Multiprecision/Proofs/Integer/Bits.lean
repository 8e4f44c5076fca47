import Mathlib
import Multiprecision.Integer.Bits
import Multiprecision.Proofs.Integer

/-!
# Multiprecision.Proofs.Integer.Bits

The magnitude as a row of bits, its binary expansion:

* `Denotes.bit` — a bit that is read is that of the value;
* `testBit_setBit` — a bit that is set or cleared is no other, wherever it is:
  the places up to one that is set are opened first;
* `Denotes.countTrailingZeros`, `Denotes.countTrailingOnes` — the zeros and the
  ones at the low end are the twos in the value and in the next number;
* `bits_exact` — all views of the bits.
-/

namespace Multiprecision

namespace Digits

/-- Setting the bits of one digit in another makes a digit. -/
theorem or_lt_base {m n : Nat} (hm : m < base) (hn : n < base) : m ||| n < base := by
  rw [base_eq] at hm hn ⊢
  exact Nat.or_lt_two_pow hm hn

/-- Digits stay in range if the one that is changed does. -/
theorem inRange_modify {f : Digit → Digit} (hf : ∀ d, d.toNat < base → (f d).toNat < base)
    {ds : List Digit} (hds : InRange ds) (place : Nat) : InRange (ds.modify place f) := by
  induction ds generalizing place with
  | nil => simp
  | cons d ds ih =>
    obtain ⟨hd, hds⟩ := inRange_cons.mp hds
    cases place with
    | zero => exact inRange_cons.mpr ⟨hf d hd, hds⟩
    | succ place => exact inRange_cons.mpr ⟨hd, ih hds place⟩

/-- Setting a bit of a digit keeps the digits in range. -/
theorem inRange_modify_or {ds : List Digit} (hds : InRange ds) {bit : Digit}
    (hbit : bit.toNat < base) (place : Nat) : InRange (ds.modify place (· ||| bit)) :=
  inRange_modify (fun d hd => (UInt32.toNat_or d bit).symm ▸ or_lt_base hd hbit) hds place

/-- Clearing bits leaves digits in range. -/
theorem inRange_modify_and {ds : List Digit} (hds : InRange ds) (keep : Digit) (place : Nat) :
    InRange (ds.modify place (· &&& keep)) :=
  inRange_modify
    (fun d hd => (UInt32.toNat_and d keep).symm ▸ Nat.and_le_left.trans_lt hd) hds place

/-- A bit of the value is a bit of one digit. -/
theorem testBit_value {ds : List Digit} (hds : InRange ds) (k : Nat) :
    (value ds).testBit k = (ds[k / width]?.getD 0).toNat.testBit (k % width) := by
  rw [← List.head?_drop, ← List.headD_eq_head?_getD, headD_drop_eq hds, testBit_digit]

/-- A bit that is set is seen, and no other bit changes. -/
theorem testBit_or_bit {d bit : Digit} {n : Nat} (hbit : bit.toNat = 2 ^ n) (k : Nat) :
    (d ||| bit).toNat.testBit k = (d.toNat.testBit k || decide (n = k)) := by
  rw [UInt32.toNat_or, Nat.testBit_or, hbit, Nat.testBit_two_pow]

/-- A bit that is cleared is gone, and no other bit changes. -/
theorem testBit_and_not_bit {d bit : Digit} {n : Nat} (hbit : bit.toNat = 2 ^ n) {k : Nat}
    (hk : k < 32) :
    (d &&& ~~~bit).toNat.testBit k = (d.toNat.testBit k && !decide (n = k)) := by
  have hnot : (~~~bit).toNat = 2 ^ 32 - (bit.toNat + 1) := by
    rw [UInt32.toNat_not]
    show 2 ^ 32 - 1 - bit.toNat = _
    omega
  rw [UInt32.toNat_and, Nat.testBit_and, hnot, Nat.testBit_two_pow_sub_succ bit.toNat_lt, hbit,
    Nat.testBit_two_pow, decide_eq_true hk, Bool.true_and]

/-- Bits are the same exactly if they stand in the same digit, in the same place
of it. -/
theorem eq_iff_place_and_bit (k n : Nat) :
    k = n ↔ k / width = n / width ∧ k % width = n % width := by
  constructor
  · rintro rfl
    exact ⟨rfl, rfl⟩
  · rintro ⟨hplace, hbit⟩
    rw [← Nat.div_add_mod k width, ← Nat.div_add_mod n width, hplace, hbit]

/-- A change of one bit in its digit changes no other bit of the value. -/
theorem testBit_modify {ds : List Digit} {f : Digit → Digit} {n : Nat} {b : Bool}
    (hds : InRange ds) (hmodified : InRange (ds.modify (n / width) f))
    (hf : ∀ m < width, ((ds[n / width]?.map f).getD 0).toNat.testBit m =
      if m = n % width then b else (ds[n / width]?.getD 0).toNat.testBit m) (k : Nat) :
    (value (ds.modify (n / width) f)).testBit k =
      if k = n then b else (value ds).testBit k := by
  rw [testBit_value hmodified, testBit_value hds, List.getElem?_modify]
  by_cases hplace : n / width = k / width
  · simp only [if_pos hplace, Option.map_eq_map]
    rw [← hplace, hf _ (Nat.mod_lt k (by decide))]
    simp [eq_iff_place_and_bit k n, hplace]
  · have hne : k ≠ n := fun h => hplace (by rw [h])
    simp [hplace, hne]

end Digits

namespace Integer

open Digits

variable {x : Integer} {i : Int}

/-! ## Reading bits -/

/-- A digit by its place in the magnitude. -/
theorem Denotes.digit (h : x.Denotes i) (place : Nat) :
    (x.digit place).toNat = i.natAbs / base ^ place % base := by
  rw [Integer.digit, headD_drop_eq h.inRange, h.value_digits]

/-- A bit of an integer is that of its absolute value. -/
theorem Denotes.bit (h : x.Denotes i) (n : Nat) : x.bit n = i.natAbs.testBit n := by
  have hlt : n % width < width := Nat.mod_lt _ (by decide)
  have hbit : (x.digit (n / width) >>> UInt32.ofNat (n % width) &&& 1).toNat =
      i.natAbs / base ^ (n / width) % base / 2 ^ (n % width) % 2 := by
    rw [UInt32.toNat_and, UInt32.toNat_shiftRight, toNat_ofNat_of_le_width hlt.le,
      Nat.mod_eq_of_lt (hlt.trans (by decide)), UInt32.toNat_one, Nat.and_one_is_mod,
      Nat.shiftRight_eq_div_pow, h.digit]
  rw [← testBit_digit, Nat.testBit_eq_decide_div_mod_eq, ← hbit, Integer.bit, Bool.eq_iff_iff,
    beq_iff_eq, decide_eq_true_eq, ← UInt32.toNat_inj, UInt32.toNat_one]

/-! ## Setting bits -/

/-- The word with one bit of a digit set. -/
theorem toNat_bit (n : Nat) : ((1 : Digit) <<< UInt32.ofNat (n % width)).toNat = 2 ^ (n % width) :=
  toNat_one_shiftLeft (Nat.mod_lt n (by decide))

theorem toNat_bit_lt (n : Nat) : ((1 : Digit) <<< UInt32.ofNat (n % width)).toNat < base := by
  rw [toNat_bit, base_eq]
  exact Nat.pow_lt_pow_right (by decide) (Nat.mod_lt _ (by decide))

theorem magnitude_normalizeSign (x : Integer) : x.normalizeSign.magnitude = x.magnitude := by
  rw [normalizeSign]
  split <;> rfl

/-- The repair of the sign takes it from zero only. -/
theorem negative_normalizeSign (x : Integer) :
    x.normalizeSign.negative = (x.negative && decide (x.magnitude ≠ 0)) := by
  rw [normalizeSign]
  by_cases hzero : x.isZero = true
  · have hvalue : x.magnitude = 0 := Digits.isZero_iff.mp hzero
    cases hneg : x.negative <;> simp [hzero, hvalue, hneg]
  · have hvalue : x.magnitude ≠ 0 := fun h => hzero (Digits.isZero_iff.mpr h)
    simp [hzero, hvalue]

/-- Setting or clearing a bit changes no other. -/
theorem testBit_setBit (hx : InRange x.digits) (n : Nat) (b : Bool) (k : Nat) :
    (x.setBit n b).magnitude.testBit k = if k = n then b else x.magnitude.testBit k := by
  have hbit := toNat_bit n
  cases b with
  | true =>
    have hreserved : InRange (x.reserve (n / width + 1)).digits := inRange_padTo.mpr hx
    have hvalue : value (x.reserve (n / width + 1)).digits = x.magnitude := value_padTo _ _
    have hplace : n / width < (x.reserve (n / width + 1)).digits.length := by
      rw [Integer.reserve, length_padTo]
      omega
    rw [Integer.setBit, if_pos rfl, magnitude, ← hvalue]
    refine testBit_modify hreserved (inRange_modify_or hreserved (toNat_bit_lt n) _)
      (fun m _ => ?_) k
    rw [List.getElem?_eq_getElem hplace, Option.map_some, Option.getD_some, Option.getD_some,
      testBit_or_bit hbit]
    by_cases hm : m = n % width
    · simp [hm]
    · simp [hm, Ne.symm hm]
  | false =>
    have hcleared : (x.setBit n false).magnitude = value
        (x.digits.modify (n / width) (· &&& ~~~(1 <<< UInt32.ofNat (n % width)))) := by
      rw [Integer.setBit, if_neg Bool.false_ne_true, magnitude_normalizeSign]
      rfl
    rw [hcleared]
    refine testBit_modify hx (inRange_modify_and hx _ _) (fun m hm => ?_) k
    -- Past the places that are stored there is nothing to clear.
    cases x.digits[n / width]? with
    | none => simp
    | some d =>
      rw [Option.map_some, Option.getD_some, Option.getD_some,
        testBit_and_not_bit hbit (hm.trans (by decide))]
      by_cases hm : m = n % width
      · simp [hm]
      · simp [hm, Ne.symm hm]

/-- The sign stays, unless nothing is left. -/
theorem negative_setBit (hx : InRange x.digits) (n : Nat) (b : Bool) :
    (x.setBit n b).negative = (x.negative && decide ((x.setBit n b).magnitude ≠ 0)) := by
  cases b with
  | true =>
    have hset : (x.setBit n true).magnitude ≠ 0 := by
      intro hzero
      have hbit := testBit_setBit hx n true n
      rw [hzero, Nat.zero_testBit, if_pos rfl] at hbit
      exact Bool.false_ne_true hbit
    rw [decide_eq_true hset, Bool.and_true]
    rfl
  | false =>
    rw [Integer.setBit, if_neg Bool.false_ne_true, negative_normalizeSign,
      magnitude_normalizeSign]

theorem inRange_setBit (hx : InRange x.digits) (n : Nat) (b : Bool) :
    InRange (x.setBit n b).digits := by
  cases b with
  | true => exact inRange_modify_or (inRange_padTo.mpr hx) (toNat_bit_lt n) _
  | false => exact (denotes_normalizeSign (inRange_modify_and hx _ _)).inRange

/-- Setting a bit keeps the sign of a number that had one, and clearing the
last one takes it off. -/
theorem Canonical.setBit (h : x.Canonical) (n : Nat) (b : Bool) : (x.setBit n b).Canonical := by
  refine ⟨inRange_setBit h.1 n b, fun hneg => isZero_eq_false_iff.mpr ?_⟩
  rw [negative_setBit h.1, Bool.and_eq_true, decide_eq_true_eq] at hneg
  exact Nat.pos_of_ne_zero hneg.2

/-- Setting a bit of a number that is not negative sets that bit of its value. -/
theorem Denotes.setBit {n : Nat} (h : x.Denotes n) (i : Nat) :
    (x.setBit i true).Denotes ((n ||| 2 ^ i : Nat) : Int) := by
  refine denotes_mk (inRange_setBit h.inRange i true) ?_ (Nat.eq_of_testBit_eq fun k => ?_)
  · exact h.negative.trans (decide_eq_decide.mpr (by omega))
  · have hbit := testBit_setBit h.inRange i true k
    rw [h.magnitude] at hbit
    refine hbit.trans ?_
    rw [Int.natAbs_natCast, Int.natAbs_natCast, Nat.testBit_or, Nat.testBit_two_pow]
    by_cases hk : k = i
    · simp [hk]
    · simp [hk, Ne.symm hk]

/-- The power of two that a single bit makes. -/
theorem denotes_setBit_zeros (bits i : Nat) :
    ((zeros bits).setBit i true).Denotes ((2 ^ i : Nat) : Int) := by
  simpa using (denotes_zeros bits).setBit (n := 0) i

/-! ## Runs at the low end -/

/-- What higher digits add to a digit does not change the twos in it. -/
theorem exists_odd_add_base_mul {k odd : Nat} (hk : k < width) (hodd : odd % 2 = 1) (n : Nat) :
    ∃ odd', 2 ^ k * odd + base * n = 2 ^ k * odd' ∧ odd' % 2 = 1 := by
  have hsplit : base = 2 ^ k * (2 * 2 ^ (width - k - 1)) := by
    rw [base_eq, ← pow_succ', ← pow_add]
    congr 1
    omega
  refine ⟨odd + 2 * (2 ^ (width - k - 1) * n), ?_, by omega⟩
  rw [hsplit]
  ring

/-- The zeros at the low end of a word are the twos in it. -/
theorem wordTrailingZeros_spec {fuel n : Nat} (hlt : n < 2 ^ fuel) (hne : n ≠ 0) :
    ∃ odd, n = 2 ^ wordTrailingZeros fuel n * odd ∧ odd % 2 = 1 := by
  induction fuel generalizing n with
  | zero => omega
  | succ fuel ih =>
    rw [wordTrailingZeros]
    split
    · next hodd => exact ⟨n, by rw [pow_zero, Nat.one_mul], hodd⟩
    · next heven =>
      have htwice : n = 2 * (n / 2) := by omega
      obtain ⟨odd, hhalf, hodd⟩ := ih (n := n / 2) (by rw [pow_succ] at hlt; omega) (by omega)
      refine ⟨odd, ?_, hodd⟩
      rw [pow_succ', Nat.mul_assoc, ← hhalf]
      exact htwice

/-- As many zeros are counted as the power of two in the number has. -/
theorem countTrailingZeros_go_spec {ds : List Digit} (hds : InRange ds) (hne : value ds ≠ 0) :
    ∃ odd, value ds = 2 ^ countTrailingZeros.go ds * odd ∧ odd % 2 = 1 := by
  induction ds with
  | nil => exact absurd rfl hne
  | cons d ds ih =>
    obtain ⟨hd, hds⟩ := inRange_cons.mp hds
    rw [countTrailingZeros.go, value_cons]
    split
    · next hzero =>
      rw [value_cons, hzero, UInt32.toNat_zero, Nat.zero_add] at hne
      obtain ⟨odd, hvalue, hodd⟩ := ih hds (right_ne_zero_of_mul hne)
      refine ⟨odd, ?_, hodd⟩
      rw [hzero, UInt32.toNat_zero, Nat.zero_add, hvalue, pow_add, ← base_eq, Nat.mul_assoc]
    · next hnonzero =>
      have hpos : d.toNat ≠ 0 := mt toNat_eq_zero_iff.mp hnonzero
      obtain ⟨odd, hvalue, hodd⟩ := wordTrailingZeros_spec (base_eq ▸ hd : d.toNat < 2 ^ width) hpos
      have hk : wordTrailingZeros width d.toNat < width := by
        have hle := Nat.le_of_dvd (Nat.pos_of_ne_zero hpos) ⟨odd, hvalue⟩
        rw [base_eq] at hd
        exact (Nat.pow_lt_pow_iff_right (by decide)).mp (hle.trans_lt hd)
      obtain ⟨odd', hsum, hodd'⟩ := exists_odd_add_base_mul hk hodd (value ds)
      exact ⟨odd', by rw [← hsum, ← hvalue], hodd'⟩

/-- A number other than zero is an odd number times the power of two by its
trailing zeros. -/
theorem Denotes.countTrailingZeros (h : x.Denotes i) (hne : i ≠ 0) :
    ∃ odd, i.natAbs = 2 ^ x.countTrailingZeros * odd ∧ odd % 2 = 1 := by
  obtain ⟨hr, hv⟩ := h.significant
  rw [← hv, Integer.countTrailingZeros]
  exact countTrailingZeros_go_spec hr (hv ▸ Int.natAbs_ne_zero.mpr hne)

/-- The power of two in a number is the largest that divides it. -/
theorem isGreatest_two_pow_dvd {n k odd : Nat} (hn : n = 2 ^ k * odd) (hodd : odd % 2 = 1) :
    IsGreatest {j | 2 ^ j ∣ n} k := by
  refine ⟨⟨odd, hn⟩, fun j hj => ?_⟩
  by_contra hlt
  have hdvd : 2 ^ k * 2 ∣ 2 ^ k * odd := by
    rw [← hn, ← pow_succ]
    exact (pow_dvd_pow 2 (by omega)).trans hj
  have := Nat.dvd_of_mul_dvd_mul_left (Nat.two_pow_pos k) hdvd
  omega

/-- The ones at the low end of a word are the twos in the next number. -/
theorem wordTrailingOnes_spec {fuel n : Nat} (hlt : n < 2 ^ fuel) :
    ∃ odd, n + 1 = 2 ^ wordTrailingOnes fuel n * odd ∧ odd % 2 = 1 := by
  induction fuel generalizing n with
  | zero => exact ⟨1, by simpa [wordTrailingOnes] using hlt, rfl⟩
  | succ fuel ih =>
    rw [wordTrailingOnes]
    split
    · next heven => exact ⟨n + 1, by rw [pow_zero, Nat.one_mul], by omega⟩
    · next hodd =>
      obtain ⟨odd, hhalf, hodd⟩ := ih (n := n / 2) (by rw [pow_succ] at hlt; omega)
      refine ⟨odd, ?_, hodd⟩
      rw [pow_succ', Nat.mul_assoc, ← hhalf]
      omega

theorem wordTrailingOnes_le (fuel n : Nat) : wordTrailingOnes fuel n ≤ fuel := by
  induction fuel generalizing n with
  | zero => exact Nat.le_refl 0
  | succ fuel ih =>
    rw [wordTrailingOnes]
    split
    · exact Nat.zero_le _
    · exact Nat.succ_le_succ (ih (n / 2))

/-- As many ones are counted as the power of two in the next number has zeros. -/
theorem countTrailingOnes_go_spec {ds : List Digit} (hds : InRange ds) :
    ∃ odd, value ds + 1 = 2 ^ countTrailingOnes.go ds * odd ∧ odd % 2 = 1 := by
  induction ds with
  | nil => exact ⟨1, rfl, rfl⟩
  | cons d ds ih =>
    obtain ⟨hd, hds⟩ := inRange_cons.mp hds
    obtain ⟨odd, hvalue, hodd⟩ := wordTrailingOnes_spec (base_eq ▸ hd : d.toNat < 2 ^ width)
    have hle := wordTrailingOnes_le width d.toNat
    rw [countTrailingOnes.go, value_cons]
    split
    · next hlt =>
      obtain ⟨odd', hsum, hodd'⟩ := exists_odd_add_base_mul hlt hodd (value ds)
      exact ⟨odd', by rw [Nat.add_right_comm, hvalue, hsum], hodd'⟩
    · next hfull =>
      -- All ones: the carry of the next number goes on to the higher digits.
      have hk : wordTrailingOnes width d.toNat = width := by omega
      rw [hk, ← base_eq] at hvalue
      have hones : d.toNat + 1 = base := by
        have hpos : 0 < odd := by omega
        have := Nat.le_mul_of_pos_right base hpos
        omega
      obtain ⟨odd', hvalue', hodd'⟩ := ih hds
      refine ⟨odd', ?_, hodd'⟩
      rw [Nat.add_right_comm, hones, hk, pow_add, ← base_eq, Nat.mul_assoc, ← hvalue']
      ring

/-- The number after the magnitude is an odd number times the power of two by its
trailing ones. -/
theorem Denotes.countTrailingOnes (h : x.Denotes i) :
    ∃ odd, i.natAbs + 1 = 2 ^ x.countTrailingOnes * odd ∧ odd % 2 = 1 := by
  obtain ⟨hr, hv⟩ := h.significant
  rw [← hv, Integer.countTrailingOnes]
  exact countTrailingOnes_go_spec hr

/-- The bits of the magnitude are its binary expansion, wherever the stored places
end.  A bit that is set or cleared changes no other, and the sign stays unless
nothing is left.  The number of bits, the zeros and the ones at the low end are
what they are in the expansion. -/
theorem bits_exact (h : x.Denotes i) :
    (∀ n, x.bit n = i.natAbs.testBit n) ∧
    (∀ n b, (x.setBit n b).Canonical ∧
      (∀ k, (x.setBit n b).magnitude.testBit k = if k = n then b else i.natAbs.testBit k) ∧
      (x.setBit n b).negative = (x.negative && decide ((x.setBit n b).magnitude ≠ 0))) ∧
    IsLeast {n | i.natAbs < 2 ^ n} x.bitLength ∧
    (i ≠ 0 → IsGreatest {k | 2 ^ k ∣ i.natAbs} x.countTrailingZeros ∧
      IsGreatest {k | 2 ^ k ∣ i.natAbs + 1} x.countTrailingOnes) ∧
    (i = 0 → x.countTrailingZeros = 0 ∧ x.countTrailingOnes = 0) := by
  refine ⟨h.bit, fun n b => ⟨h.canonical.setBit n b, fun k => ?_, negative_setBit h.inRange n b⟩,
    ?_, fun hne => ⟨?_, ?_⟩, fun hzero => ?_⟩
  · rw [testBit_setBit h.inRange, h.magnitude]
  · rw [h.bitLength]
    exact ⟨Nat.lt_size_self _, fun n hn => Nat.size_le.mpr hn⟩
  · obtain ⟨odd, hvalue, hodd⟩ := h.countTrailingZeros hne
    exact isGreatest_two_pow_dvd hvalue hodd
  · obtain ⟨odd, hvalue, hodd⟩ := h.countTrailingOnes
    exact isGreatest_two_pow_dvd hvalue hodd
  · have hnone : x.significant = [] := by
      rw [h.significant_eq, hzero, Int.natAbs_zero, Digits.ofNat, if_pos rfl]
    rw [Integer.countTrailingZeros, Integer.countTrailingOnes, hnone]
    exact ⟨rfl, rfl⟩

/-- A negative integer of two digits and a reserved place, whose highest bit is cleared. -/
theorem bits_exact_across_places :
    Denotes ⟨true, [0x3FFFFFFF, 1, 0]⟩ (-(2 ^ 31 - 1)) ∧
    setBit ⟨true, [0x3FFFFFFF, 1, 0]⟩ 30 false = ⟨true, [0x3FFFFFFF, 0, 0]⟩ ∧
    (∀ k, (2 ^ 30 - 1).testBit k = if k = 30 then false else (2 ^ 31 - 1).testBit k) ∧
    countTrailingOnes ⟨true, [0x3FFFFFFF, 1, 0]⟩ = 31 ∧
    IsGreatest {k | 2 ^ k ∣ 2 ^ 31 - 1 + 1} 31 := by
  have hx : Denotes ⟨true, [0x3FFFFFFF, 1, 0]⟩ (-(2 ^ 31 - 1)) :=
    ⟨by simp [Canonical, base, Digits.isZero], by decide⟩
  obtain ⟨-, hset, -, hruns, -⟩ := bits_exact hx
  have hcleared : setBit ⟨true, [0x3FFFFFFF, 1, 0]⟩ 30 false = ⟨true, [0x3FFFFFFF, 0, 0]⟩ := by
    decide +kernel
  have hones : countTrailingOnes ⟨true, [0x3FFFFFFF, 1, 0]⟩ = 31 := by decide +kernel
  have hbits := (hset 30 false).2.1
  rw [hcleared] at hbits
  have hgreatest := (hruns (by decide)).2
  rw [hones] at hgreatest
  exact ⟨hx, hcleared, hbits, hones, hgreatest⟩

end Integer

end Multiprecision
