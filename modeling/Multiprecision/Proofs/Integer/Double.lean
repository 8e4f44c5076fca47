import Mathlib
import Multiprecision.Integer.Double
import Multiprecision.Proofs.Double.Arithmetic
import Multiprecision.Proofs.Integer

/-!
# Multiprecision.Proofs.Integer.Double

The leading digits of a magnitude as a double are near the magnitude
(`Denotes.scaled`).  At most three digits that are not zero are added before
the sum stays as it is, and each rounds it once; the digits that are left out
are together no larger than what the rounding of the sum takes away.
-/

namespace Multiprecision.Integer

open Digits Double

/-! ## Powers of two -/

/-- A power of two is a double, unless it is below the least one. -/
theorem isDouble_two_zpow {e : ℤ} (he : -1074 ≤ e) : IsDouble (2 ^ e) :=
  ⟨1, e, by norm_num, he, by rw [Nat.cast_one, one_mul]⟩

theorem holds_one : Holds 1 1 := by
  have hshape : Shape (2 ^ 52) (-52) :=
    ⟨by norm_num, by norm_num, by norm_num, Or.inl le_rfl⟩
  have h : Holds 1 ((2 ^ 52 : ℕ) * 2 ^ (-52 : ℤ)) := Stands.finite (by norm_num) hshape
  norm_num at h
  exact h

theorem holds_two : Holds 2 2 := by
  have hshape : Shape (2 ^ 52) (-51) :=
    ⟨by norm_num, by norm_num, by norm_num, Or.inl le_rfl⟩
  have h : Holds 2 ((2 ^ 52 : ℕ) * 2 ^ (-51 : ℤ)) := Stands.finite (by norm_num) hshape
  norm_num at h
  exact h

/-- Doubling one `n` times gives `2^n` exactly. -/
theorem holds_doubled {n : ℕ} (hn : n ≤ 1022) : Holds (Nat.repeat (2 * ·) n 1) (2 ^ (n : ℤ)) := by
  induction n with
  | zero => simpa [Nat.repeat] using holds_one
  | succ n ih =>
    have hpow : (2 : ℚ) * 2 ^ (n : ℤ) = 2 ^ ((n + 1 : ℕ) : ℤ) := by
      rw [Nat.cast_succ, zpow_add_one₀ two_ne_zero, mul_comm]
    have hexponent : ((n + 1 : ℕ) : ℤ) < 1023 := by omega
    have hlt := two_zpow_lt hexponent
    have hdouble : IsDouble ((2 : ℚ) ^ ((n + 1 : ℕ) : ℤ)) := isDouble_two_zpow (by omega)
    rw [← hpow] at hlt hdouble ⊢
    exact holds_two.mul_exact (ih (by omega)) hlt hdouble

/-- The power of two is exact for exponents that are not near the ends of their
range. -/
theorem holds_powerOfTwo {e : ℤ} (hlow : -1022 ≤ e) (hhigh : e ≤ 1022) :
    Holds (powerOfTwo e) (2 ^ e) := by
  have hsmall : e.natAbs < 1024 := by omega
  have hpower := holds_doubled (show e.natAbs ≤ 1022 by omega)
  rw [powerOfTwo, if_pos hsmall]
  split
  · next hneg =>
    have hinverse : 1 / (2 : ℚ) ^ (e.natAbs : ℤ) = 2 ^ e := by
      rw [one_div, ← zpow_neg]
      congr 1
      omega
    have hexponent : e < 1023 := by omega
    have hlt := two_zpow_lt hexponent
    rw [← hinverse] at hlt
    obtain ⟨s, hs, hholds⟩ := holds_one.div hpower (two_zpow_pos _) hlt
    rw [hinverse] at hs
    rwa [hs.eq_of_isDouble (isDouble_two_zpow (by omega))] at hholds
  · next hpos => rwa [Int.natAbs_of_nonneg (by omega)] at hpower

/-- From -1024 on downwards the power is zero, the reciprocal of infinity. -/
theorem powerOfTwo_eq_zero {e : ℤ} (he : e ≤ -1024) : powerOfTwo e = 0 := by
  have hlarge : ¬ e.natAbs < 1024 := by omega
  rw [powerOfTwo, if_neg hlarge, if_pos (by omega)]
  rfl

/-! ## Sums of digits -/

variable {unit : ℤ} {ds : List Digit} {d : Digit} {sum : Float} {s bound : ℚ}

/-- What a digit counts in place `i`, where the digit in place `unit` counts
ones. -/
def place (unit : ℤ) (i : ℕ) : ℚ := 2 ^ ((i - unit) * width)

/-- The number with the given digits, from the top down to place zero. -/
def leading (unit : ℤ) (ds : List Digit) : ℚ := value ds.reverse * place unit 0

theorem place_pos (unit : ℤ) (i : ℕ) : 0 < place unit i := two_zpow_pos _

/-- The value of a place is that of the lowest one times a power of the base. -/
theorem place_eq (unit : ℤ) (i : ℕ) : place unit i = base ^ i * place unit 0 := by
  rw [place, place, base_eq, ← zpow_natCast, Nat.cast_pow, Nat.cast_ofNat, ← zpow_natCast,
    ← zpow_mul, ← zpow_add₀ two_ne_zero]
  congr 1
  push_cast
  ring

/-- A place counts the base times as much as the next lower one. -/
theorem place_succ (unit : ℤ) (i : ℕ) : place unit (i + 1) = base * place unit i := by
  rw [place_eq, place_eq unit i, pow_succ']
  ring

theorem leading_nonneg (unit : ℤ) (ds : List Digit) : 0 ≤ leading unit ds :=
  mul_nonneg (Nat.cast_nonneg _) (place_pos unit 0).le

/-- The top digit counts in the place above all others. -/
theorem leading_cons (unit : ℤ) (d : Digit) (ds : List Digit) :
    leading unit (d :: ds) = d.toNat * place unit ds.length + leading unit ds := by
  rw [leading, leading, place_eq unit ds.length, List.reverse_cons, value_append,
    List.length_reverse, value_cons, value_nil]
  push_cast
  ring

/-- Digits below a place are together less than one unit of it. -/
theorem leading_lt (hds : InRange ds) (unit : ℤ) : leading unit ds < place unit ds.length := by
  have hlt : value ds.reverse < base ^ ds.length := by
    rw [← ds.length_reverse]
    exact value_lt fun d h => hds d (List.mem_reverse.mp h)
  rw [leading, place_eq unit ds.length]
  exact mul_lt_mul_of_pos_right (by exact_mod_cast hlt) (place_pos unit 0)

/-- A digit that is not zero counts at least one unit of its place. -/
theorem place_le_summand (hne : d ≠ 0) (unit : ℤ) (i : ℕ) :
    place unit i ≤ d.toNat * place unit i := by
  have hzero : d.toNat ≠ 0 := fun h => hne (UInt32.toNat_inj.mp h)
  have hone : (1 : ℚ) ≤ d.toNat := by exact_mod_cast Nat.one_le_iff_ne_zero.mpr hzero
  exact le_mul_of_one_le_left (place_pos unit i).le hone

/-- A digit's summand is exact, unless the power of two is no double any
more. -/
theorem summand_holds (hd : d.toNat < base) (hne : d ≠ 0)
    (hbound : d.toNat * place unit ds.length ≤ 2 ^ (1000 : ℤ)) :
    ∃ c, Holds (d.toFloat * powerOfTwo ((ds.length - unit) * width)) c ∧
      (c = d.toNat * place unit ds.length ∨
        c = 0 ∧ d.toNat * place unit ds.length ≤ 2 ^ (-994 : ℤ)) := by
  have hplace := (place_le_summand hne unit ds.length).trans hbound
  rw [place] at hplace hbound ⊢
  set e := (ds.length - unit) * (width : ℤ) with he
  by_cases hlow : -1022 ≤ e
  · have hhigh : e ≤ 1000 := (zpow_le_zpow_iff_right₀ one_lt_two).mp hplace
    have hbits : d.toNat < 2 ^ 53 := hd.trans (by decide)
    have hdouble : IsDouble ((d.toNat : ℚ) * 2 ^ e) := ⟨d.toNat, e, hbits, by omega, rfl⟩
    have hlt : (2 : ℚ) ^ (1000 : ℤ) < 2 ^ (1023 : ℤ) := two_zpow_lt (by norm_num)
    exact ⟨_, (holds_toFloat d).mul_exact (holds_powerOfTwo hlow (by omega))
      (hbound.trans_lt hlt) hdouble, Or.inl rfl⟩
  · -- The power is zero; there is no such exponent between the two cases.
    have hwidth : (width : ℤ) = 30 := rfl
    rw [hwidth] at he
    have hle : e ≤ -1024 := by omega
    have hzero : (d.toNat : ℚ) * 0 < 2 ^ (1023 : ℤ) := by rw [mul_zero]; exact two_zpow_pos _
    have hdouble : IsDouble ((d.toNat : ℚ) * 0) := by rw [mul_zero]; exact holds_zero.isDouble
    have hproduct := (holds_toFloat d).mul_exact holds_zero hzero hdouble
    rw [mul_zero] at hproduct
    refine ⟨0, by rwa [powerOfTwo_eq_zero hle], Or.inr ⟨rfl, ?_⟩⟩
    have hdigit : (d.toNat : ℚ) ≤ 2 ^ 30 := by exact_mod_cast hd.le
    calc (d.toNat : ℚ) * 2 ^ e ≤ 2 ^ 30 * 2 ^ (-1024 : ℤ) :=
          mul_le_mul hdigit (two_zpow_le hle) (two_zpow_pos e).le (by norm_num)
      _ = 2 ^ (-994 : ℤ) := by rw [← two_zpow_add_nat]; norm_num

/-- What one rounding may change at sums up to `bound`. -/
def slack (bound : ℚ) : ℚ := bound / 2 ^ 52 + 2 ^ (-993 : ℤ)

/-- The sum `s` is so far above the place value `p` that at most `left` of the
digits below change it. -/
def Ahead (left : ℕ) (s p : ℚ) : Prop := left = 3 ∧ s = 0 ∨ left ≤ 2 ∧ base ^ (2 - left) * p ≤ s

variable {left : ℕ} {n : ℕ} {s' : ℚ}

/-- A place further down, the sum is as far ahead as it was. -/
theorem Ahead.skip (h : Ahead left s (place unit (n + 1))) : Ahead left s (place unit n) := by
  refine h.imp_right fun ⟨hleft, hle⟩ => ⟨hleft, le_trans ?_ hle⟩
  have hplace : place unit n ≤ place unit (n + 1) := by
    rw [place_succ]
    exact le_mul_of_one_le_left (place_pos unit n).le (by norm_num [base])
  exact mul_le_mul_of_nonneg_left hplace (by positivity)

/-- Once a digit was added, one digit less can change the sum. -/
theorem Ahead.step (h : Ahead (left + 1) s (place unit (n + 1))) (hle : s ≤ s')
    (hplace : place unit n ≤ s') : Ahead left s' (place unit n) := by
  cases h with
  | inl h =>
    obtain rfl : left = 2 := by omega
    exact Or.inr ⟨le_rfl, by simpa using hplace⟩
  | inr h =>
    obtain ⟨hleft, h⟩ := h
    refine Or.inr ⟨by omega, le_trans ?_ hle⟩
    rw [show 2 - left = 2 - (left + 1) + 1 by omega, pow_succ, mul_assoc, ← place_succ]
    exact h

/-- Where no digit can change the sum any more, the place is below its last bit. -/
theorem Ahead.small (h : Ahead 0 s (place unit (n + 1))) : place unit (n + 1) ≤ s / 2 ^ 54 := by
  have hle := (h.resolve_left (by omega)).2
  have hpos := place_pos unit (n + 1)
  norm_num [base] at hle
  linarith

/-- The sum with one more digit, if it has to be added at all. -/
theorem digit_added (hsum : Holds sum s) (hd : d.toNat < base) (hne : d ≠ 0)
    (hsmall : s + d.toNat * place unit ds.length ≤ 2 ^ (1000 : ℤ)) :
    ∃ s', Holds (sum + d.toFloat * powerOfTwo ((ds.length - unit) * width)) s' ∧
      (s' = s ∧ 2 * (d.toNat * place unit ds.length) ≤ slack (s + d.toNat * place unit ds.length) ∨
        s' ≠ s ∧ Rounds (s + d.toNat * place unit ds.length) s' ∧ s ≤ s' ∧
          d.toNat * place unit ds.length ≤ s') := by
  have hs := hsum.nonneg
  have hplace := place_pos unit ds.length
  obtain ⟨c, hc, hcase⟩ := summand_holds hd hne
    ((le_add_of_nonneg_left hs).trans hsmall)
  have hpos : 0 ≤ (d.toNat : ℚ) * place unit ds.length := mul_nonneg (Nat.cast_nonneg _) hplace.le
  generalize (d.toNat : ℚ) * place unit ds.length = whole at *
  have hroom : 0 ≤ (s + whole) / 2 ^ 52 := by positivity
  have hlt : (2 : ℚ) ^ (1000 : ℤ) < 2 ^ (1023 : ℤ) := two_zpow_lt (by norm_num)
  have hdouble : (2 : ℚ) ^ (-993 : ℤ) = 2 * 2 ^ (-994 : ℤ) := by
    rw [← zpow_one_add₀ two_ne_zero]
    rfl
  have hle : c ≤ whole := by
    cases hcase with
    | inl h => exact h.le
    | inr h => exact h.1.le.trans hpos
  obtain ⟨s', hr, hholds⟩ := hsum.add hc
    ((add_le_add_right hle s).trans_lt (hsmall.trans_lt hlt))
  refine ⟨s', hholds, ?_⟩
  cases hcase with
  | inl hexact =>
    rw [hexact] at hc hr
    by_cases hsame : s' = s
    · rw [hsame] at hr
      have hmoved := hr.abs_sub_le (add_nonneg hs hpos)
      rw [sub_add_cancel_left, abs_neg, abs_of_nonneg hpos] at hmoved
      have hleast : (2 : ℚ) ^ (-1075 : ℤ) ≤ 2 ^ (-994 : ℤ) := two_zpow_le (by norm_num)
      refine Or.inl ⟨hsame, ?_⟩
      rw [slack, hdouble]
      linarith
    · exact Or.inr ⟨hsame, hr, hr.ge_of_isDouble hsum.isDouble (le_add_of_nonneg_right hpos),
        hr.ge_of_isDouble hc.isDouble (le_add_of_nonneg_left hs)⟩
  | inr hlost =>
    obtain ⟨rfl, htiny⟩ := hlost
    rw [add_zero] at hr
    refine Or.inl ⟨hr.eq_of_isDouble hsum.isDouble, ?_⟩
    rw [slack, hdouble]
    linarith

variable {q r : ℚ}

/-- One rounding of a sum up to `bound` changes it by no more than the slack. -/
theorem abs_sub_le_slack (h : Rounds q r) (hq : 0 ≤ q) (hle : q ≤ bound) :
    |r - q| ≤ slack bound := by
  have hleast : (2 : ℚ) ^ (-1075 : ℤ) ≤ 2 ^ (-993 : ℤ) := two_zpow_le (by norm_num)
  refine (h.abs_sub_le hq).trans ?_
  rw [slack]
  linarith

theorem slack_nonneg (h : 0 ≤ bound) : 0 ≤ slack bound := by
  rw [slack]
  positivity

theorem slack_mono {bound' : ℚ} (h : bound ≤ bound') : slack bound ≤ slack bound' := by
  rw [slack, slack]
  linarith

/-- The slack is no more than the sum and one. -/
theorem slack_le (h : 0 ≤ bound) : slack bound ≤ bound + 1 := by
  have hone : (2 : ℚ) ^ (-993 : ℤ) ≤ 2 ^ (0 : ℤ) := two_zpow_le (by norm_num)
  rw [zpow_zero] at hone
  rw [slack]
  linarith

/-- A sum that a rounding has made larger has at most twice the slack. -/
theorem slack_add_slack (h : 0 ≤ bound) : slack (bound + slack bound) ≤ 2 * slack bound := by
  have hnonneg := slack_nonneg h
  have hsplit : slack (bound + slack bound) = slack bound + slack bound / 2 ^ 52 := by
    rw [slack, slack]
    ring
  rw [hsplit]
  linarith

/-- The room that is left for the digits is enough after a rounding too. -/
theorem room_step {room : ℚ} (hpos : 0 ≤ bound) (h : (bound + 1) * 2 ^ (left + 1) ≤ room) :
    (bound + slack bound + 1) * 2 ^ left ≤ room := by
  refine le_trans ?_ h
  rw [pow_succ', ← mul_assoc]
  refine mul_le_mul_of_nonneg_right ?_ (by positivity)
  linarith [slack_le hpos]

/-- One more rounding before the others. -/
theorem near_step {c rest : ℚ} (hpos : 0 ≤ bound) (hmove : |s' - (s + c)| ≤ slack bound)
    (hnear : |r - (s' + rest)| ≤ 4 ^ left * slack (bound + slack bound)) :
    |r - (s + (c + rest))| ≤ 4 ^ (left + 1) * slack bound := by
  have hfour : (1 : ℚ) ≤ 4 ^ left := one_le_pow₀ (by norm_num)
  have hslack := slack_nonneg hpos
  have hfirst : slack bound ≤ 4 ^ left * slack bound := le_mul_of_one_le_left hslack hfour
  have hothers : 4 ^ left * slack (bound + slack bound) ≤ 4 ^ left * (2 * slack bound) :=
    mul_le_mul_of_nonneg_left (slack_add_slack hpos) (by positivity)
  have hsplit : r - (s + (c + rest)) = (r - (s' + rest)) + (s' - (s + c)) := by ring
  calc |r - (s + (c + rest))| ≤ |r - (s' + rest)| + |s' - (s + c)| := hsplit ▸ abs_add_le _ _
    _ ≤ 4 ^ left * (2 * slack bound) + 4 ^ left * slack bound :=
        add_le_add (hnear.trans hothers) (hmove.trans hfirst)
    _ ≤ 4 ^ (left + 1) * slack bound := by
        rw [pow_succ]
        linarith

/-- The sum of the leading digits is near the number with all of them. -/
theorem scaledSum_near (hds : InRange ds) (hsum : Holds sum s)
    (hahead : Ahead left s (place unit ds.length)) (hbound : s + leading unit ds ≤ bound)
    (hsmall : (bound + 1) * 2 ^ left ≤ 2 ^ (1000 : ℤ)) :
    ∃ r, Holds (scaledSum unit ds ds.length sum) r ∧
      |r - (s + leading unit ds)| ≤ 4 ^ left * slack bound := by
  induction ds generalizing left sum s bound with
  | nil =>
    have hpos : 0 ≤ bound := (add_nonneg hsum.nonneg (leading_nonneg unit [])).trans hbound
    have hslack := slack_nonneg hpos
    refine ⟨s, hsum, ?_⟩
    rw [show leading unit [] = 0 by simp [leading], add_zero, sub_self, abs_zero]
    positivity
  | cons d ds ih =>
    obtain ⟨hd, hds⟩ := inRange_cons.mp hds
    have hs := hsum.nonneg
    have hpos : 0 ≤ bound := (add_nonneg hs (leading_nonneg unit (d :: ds))).trans hbound
    rw [leading_cons] at hbound ⊢
    rw [List.length_cons] at hahead
    rw [scaledSum, List.length_cons, Nat.add_sub_cancel]
    split
    · next hzero =>
      rw [hzero, UInt32.toNat_zero, Nat.cast_zero, zero_mul, zero_add] at hbound ⊢
      exact ih hds hsum hahead.skip hbound hsmall
    · next hne =>
      rw [Nat.cast_succ, add_sub_cancel_right]
      dsimp only
      have hwhole := place_le_summand hne unit ds.length
      have hplace := place_pos unit ds.length
      have hrest := leading_nonneg unit ds
      have hpartial : s + d.toNat * place unit ds.length ≤ bound := by linarith
      have hroom : s + d.toNat * place unit ds.length ≤ 2 ^ (1000 : ℤ) := by
        refine le_trans ?_ hsmall
        have htwo : (1 : ℚ) ≤ 2 ^ left := one_le_pow₀ one_le_two
        linarith [le_mul_of_one_le_right (by linarith : 0 ≤ bound + 1) htwo]
      obtain ⟨s', hholds, hcase⟩ := digit_added hsum hd hne hroom
      cases hcase with
      | inl hstop =>
        obtain ⟨rfl, hlost⟩ := hstop
        rw [if_pos ((hholds.beq_iff hsum).mpr rfl)]
        refine ⟨_, hsum, ?_⟩
        have htail := leading_lt hds unit
        have hslack := slack_mono hpartial
        have hfour : (1 : ℚ) ≤ 4 ^ left := one_le_pow₀ (by norm_num)
        rw [sub_add_cancel_left, abs_neg, abs_of_nonneg (by linarith)]
        exact le_trans (by linarith) (le_mul_of_one_le_left (slack_nonneg hpos) hfour)
      | inr hgo =>
        obtain ⟨hmoved, hr, hle, hle'⟩ := hgo
        rw [if_neg (fun h => hmoved ((hholds.beq_iff hsum).mp h))]
        cases left with
        | zero =>
          have hclose : d.toNat * place unit ds.length ≤ s / 2 ^ 54 := by
            refine le_trans ?_ hahead.small
            rw [place_succ]
            exact mul_le_mul_of_nonneg_right (by exact_mod_cast hd.le) hplace.le
          exact absurd (hr.eq_of_close hsum.isDouble (by linarith) (by linarith)) hmoved
        | succ left =>
          have hmove := abs_sub_le_slack hr (by linarith) hpartial
          have hbound' : s' + leading unit ds ≤ bound + slack bound := by
            linarith [(abs_le.mp hmove).2]
          obtain ⟨r, hr', hnear⟩ := ih hds hholds (hahead.step hle (hwhole.trans hle')) hbound'
            (room_step hpos hsmall)
          exact ⟨r, hr', near_step hpos hmove hnear⟩

/-- The leading digits as a double are near the magnitude. -/
theorem Denotes.scaled {x : Integer} {i : ℤ} (h : x.Denotes i) (unit : ℤ)
    (hsmall : i.natAbs * place unit 0 ≤ 2 ^ (100 : ℤ)) :
    ∃ r, Holds (x.scaled unit) r ∧
      |r - i.natAbs * place unit 0| ≤ 64 * slack (i.natAbs * place unit 0) := by
  obtain ⟨hrange, hvalue⟩ := h.significant
  have hreverse : InRange x.significant.reverse := fun d hd => hrange d (List.mem_reverse.mp hd)
  have hleading : leading unit x.significant.reverse = i.natAbs * place unit 0 := by
    rw [leading, List.reverse_reverse, hvalue]
  have hroom : ((i.natAbs : ℚ) * place unit 0 + 1) * 2 ^ 3 ≤ 2 ^ (1000 : ℤ) := by
    have hone : (2 : ℚ) ^ (0 : ℤ) ≤ 2 ^ (100 : ℤ) := two_zpow_le (by norm_num)
    rw [zpow_zero] at hone
    calc ((i.natAbs : ℚ) * place unit 0 + 1) * 2 ^ 3 ≤ (2 ^ (100 : ℤ) + 2 ^ (100 : ℤ)) * 2 ^ 3 := by
          gcongr
      _ = 2 ^ (104 : ℤ) := by norm_num
      _ ≤ 2 ^ (1000 : ℤ) := two_zpow_le (by norm_num)
  obtain ⟨r, hr, hnear⟩ := scaledSum_near hreverse holds_zero (Or.inl ⟨rfl, rfl⟩)
    ((zero_add _).trans hleading).le hroom
  rw [zero_add, hleading] at hnear
  rw [List.length_reverse] at hr
  refine ⟨r, hr, hnear.trans_eq ?_⟩
  norm_num

end Multiprecision.Integer
