import Mathlib
import Multiprecision.Product.ToomCook
import Multiprecision.Proofs.Integer.Shift
import Multiprecision.Proofs.Integer.Word
import Multiprecision.Proofs.Product.Factors

/-!
# Multiprecision.Proofs.Product.ToomCook

Each Toom–Cook product and square is exact when the multiplier is:

* `mul15_yields`, `mul2_yields`, `mul25_yields`, `mul3_yields`;
* `square2_yields`, `square3_yields`;
* `toomCook_exact` — all of them return if the multiplier does.

An interpolation is an identity between the coefficients of the product and
its values; the divisions in it are exact by the same identity.  The
multiplier needs to be exact only on operands that a split of four or more
digits has made shorter, and that are together smaller than those it was
made of (`HandsOn`).
-/

namespace Multiprecision.ToomCook

open Digits Integer

variable {may : Endings} {multiply : Multiplier}
variable {x left right : Integer} {i j : Int} {z : Nat}

/-! ## Chunks -/

/-- A chunk is `z` digits of the operand, from place `k * z` on. -/
theorem denotes_chunk (h : x.Denotes i) (hz : z ≠ 0) (k : Nat) :
    (chunk x z k).Denotes (i.natAbs / base ^ (k * z) % base ^ z : Nat) := by
  have hwindow := h.digitWindow (k * z) ((k + 1) * z - 1)
  rwa [show (k + 1) * z - 1 + 1 - k * z = z by
    rw [Nat.succ_mul]
    omega] at hwindow

/-- The last chunk is all that lies above. -/
theorem denotes_lastChunk (h : x.Denotes i) (z k : Nat) :
    (lastChunk x z k).Denotes (i.natAbs / base ^ (k * z) : Nat) := by
  have hwindow := h.digitWindow (k * z) x.digitCount
  rwa [Nat.mod_eq_of_lt] at hwindow
  rw [Nat.div_lt_iff_lt_mul (Nat.pow_pos base_pos), ← pow_add]
  exact h.natAbs_lt.trans_le (Nat.pow_le_pow_right base_pos (by omega))

/-- A high part has as many digits fewer as lie below it. -/
theorem div_base_pow_lt (h : x.Denotes i) {s w : Nat} (hw : x.digitCount ≤ w + s) :
    i.natAbs / base ^ s < base ^ w := by
  rw [Nat.div_lt_iff_lt_mul (Nat.pow_pos base_pos), ← pow_add]
  exact h.digitCount_le_iff.mp hw

/-- The chunks of an operand add up to no more than it, even with such weights
as an evaluation gives them, and to less if there is more than one. -/
theorem chunks_le {a0 a1 a2 n Z : Nat} (hZ : base ≤ Z) (hn : n = a0 + (a1 + a2 * Z) * Z) :
    a0 + 2 * a1 + 4 * a2 ≤ n ∧ (a0 < n → a0 + 2 * a1 + 4 * a2 < n) := by
  have hbase : base = 1073741824 := rfl
  have hfive : 5 * (a1 + 5 * a2) ≤ (a1 + a2 * Z) * Z := by
    rw [Nat.mul_comm 5]
    refine Nat.mul_le_mul ?_ (by omega)
    rw [Nat.mul_comm 5]
    exact Nat.add_le_add_left (Nat.mul_le_mul_left a2 (by omega)) a1
  omega

/-- An operand of more than `z` digits is not its own lowest chunk. -/
theorem chunk_lt (h : x.Denotes i) {a : Nat} (ha : a < base ^ z) (hz : z < x.digitCount) :
    a < i.natAbs :=
  ha.trans_le (not_lt.mp (h.digitCount_le_iff.not.mp (not_le.mpr hz)))

/-- An operand in two chunks. -/
theorem exists_split2 (h : x.Denotes i) (hz : z ≠ 0) :
    ∃ a0 a1 : Nat, (chunk x z 0).Denotes a0 ∧ (lastChunk x z 1).Denotes a1 ∧
      (i.natAbs : Int) = a0 + a1 * base ^ z ∧
      (a0 + a1 ≤ i.natAbs ∧ (z < x.digitCount → a0 + a1 < i.natAbs)) ∧
      ∀ w, z ≤ w → x.digitCount ≤ w + z → a0 < base ^ w ∧ a1 < base ^ w := by
  have hlow : i.natAbs / base ^ (0 * z) % base ^ z < base ^ z := Nat.mod_lt _ (Nat.pow_pos base_pos)
  have hsum : i.natAbs = i.natAbs / base ^ (0 * z) % base ^ z +
      i.natAbs / base ^ (1 * z) * base ^ z := by
    rw [Nat.zero_mul, Nat.one_mul, pow_zero, Nat.div_one, Nat.mul_comm, Nat.mod_add_div]
  have hpadded : i.natAbs = i.natAbs / base ^ (0 * z) % base ^ z +
      (i.natAbs / base ^ (1 * z) + 0 * base ^ z) * base ^ z := by
    rwa [Nat.zero_mul (base ^ z), Nat.add_zero]
  have hfew := chunks_le (Nat.le_self_pow hz base) hpadded
  refine ⟨_, _, denotes_chunk h hz 0, denotes_lastChunk h z 1, by exact_mod_cast hsum,
    ⟨by omega, fun hlong => ?_⟩, fun w hzw hw => ⟨?_, div_base_pow_lt h (by omega)⟩⟩
  · have hlt := hfew.2 (chunk_lt h hlow hlong)
    omega
  · exact hlow.trans_le (Nat.pow_le_pow_right base_pos hzw)

/-- An operand in three chunks. -/
theorem exists_split3 (h : x.Denotes i) (hz : z ≠ 0) :
    ∃ a0 a1 a2 : Nat, (chunk x z 0).Denotes a0 ∧ (chunk x z 1).Denotes a1 ∧
      (lastChunk x z 2).Denotes a2 ∧
      (i.natAbs : Int) = a0 + (a1 + a2 * base ^ z) * base ^ z ∧
      (a0 + 2 * a1 + 4 * a2 ≤ i.natAbs ∧
        (z < x.digitCount → a0 + 2 * a1 + 4 * a2 < i.natAbs)) ∧
      ∀ w, z ≤ w → x.digitCount ≤ w + 2 * z → a0 < base ^ w ∧ a1 < base ^ w ∧ a2 < base ^ w := by
  have hlow : i.natAbs / base ^ (0 * z) % base ^ z < base ^ z := Nat.mod_lt _ (Nat.pow_pos base_pos)
  have hmiddle : i.natAbs / base ^ (1 * z) % base ^ z < base ^ z :=
    Nat.mod_lt _ (Nat.pow_pos base_pos)
  have hsum : i.natAbs = i.natAbs / base ^ (0 * z) % base ^ z +
      (i.natAbs / base ^ (1 * z) % base ^ z + i.natAbs / base ^ (2 * z) * base ^ z) * base ^ z := by
    have hhigh := Nat.mod_add_div (i.natAbs / base ^ z) (base ^ z)
    rw [Nat.div_div_eq_div_mul, ← pow_add, ← Nat.two_mul] at hhigh
    rw [Nat.zero_mul, Nat.one_mul, pow_zero, Nat.div_one, Nat.mul_comm _ (base ^ z),
      Nat.mul_comm _ (base ^ z), hhigh, Nat.mod_add_div]
  have hfew := chunks_le (Nat.le_self_pow hz base) hsum
  refine ⟨_, _, _, denotes_chunk h hz 0, denotes_chunk h hz 1, denotes_lastChunk h z 2,
    by exact_mod_cast hsum, ⟨hfew.1, fun hlong => hfew.2 (chunk_lt h hlow hlong)⟩,
    fun w hzw hw => ⟨?_, ?_, div_base_pow_lt h hw⟩⟩
  · exact hlow.trans_le (Nat.pow_le_pow_right base_pos hzw)
  · exact hmiddle.trans_le (Nat.pow_le_pow_right base_pos hzw)

/-- The coefficients are recombined by Horner's rule. -/
theorem denotes_recombine (into : Integer) {cs : List Integer} {as : List Int}
    (h : List.Forall₂ Denotes cs as) {n : Nat}
    (heq : as.foldr (fun c sum => sum * (base : Int) ^ z + c) 0 = n) :
    (recombine into cs z).Denotes n := by
  have hsum : (cs.foldr (fun c sum => (sum.shiftLeftDigits z).add c) into.cleared).Denotes
      (as.foldr (fun c sum => sum * (base : Int) ^ z + c) 0) := by
    clear heq
    induction h with
    | nil => exact denotes_cleared into
    | cons hc _ ih => exact (ih.shiftLeftDigits z).add hc
  rw [heq] at hsum
  exact hsum.abs_self (Int.natCast_nonneg n)

/-! ## Exact division -/

/-- Half of an even number is exact. -/
theorem exactHalf_spec (h : x.Denotes (2 * i)) : ∃ y, exactHalf x = .ok y ∧ y.Denotes i := by
  refine ⟨_, if_pos (h.isEven_iff.mpr (dvd_mul_right 2 i)), ?_⟩
  have hshift := h.shiftRight 1
  rwa [pow_one, Int.mul_tdiv_cancel_left i (by decide)] at hshift

/-- A third of a multiple of three is exact. -/
theorem exactThird_spec (h : x.Denotes (3 * i)) : ∃ y, exactThird x = .ok y ∧ y.Denotes i := by
  obtain ⟨q, r, hdiv, hq, hr⟩ := h.divWord (w := 3) (by decide)
  have hthree : (3 : UInt32).toNat = 3 := rfl
  rw [hthree, Nat.cast_ofNat, Int.mul_tdiv_cancel_left i (by decide)] at hq
  rw [hthree, Int.natAbs_mul] at hr
  refine ⟨q, ?_, hq⟩
  have hzero : r = 0 := toNat_eq_zero_iff.mp (hr.trans (Nat.mul_mod_right 3 _))
  rw [exactThird, hdiv, hzero]
  rfl

/-! ## Sizes -/

/-- Factors as a split of an operand of `n` digits hands them on. -/
def Shrunk (n : Nat) (f : Factors) : Prop := 4 ≤ n → f.largest < base ^ (n - 1)

/-- Chunks two digits shorter leave room for the sums of an evaluation. -/
theorem base_pow_pred {n : Nat} (h : 4 ≤ n) : base ^ (n - 1) = 1073741824 * base ^ (n - 2) := by
  rw [show n - 1 = n - 2 + 1 by omega, pow_succ']
  rfl

/-- Two operands that have lost a digit of four or more are shorter. -/
theorem shrunk_pair {n : Nat} {x y : Integer} (hx : x.Denotes i) (hy : y.Denotes j)
    (h : 4 ≤ n → i.natAbs < base ^ (n - 1) ∧ j.natAbs < base ^ (n - 1)) :
    Shrunk n (.pair x y) := fun hn => by
  rw [Factors.largest_pair hx hy]
  exact max_lt (h hn).1 (h hn).2

theorem shrunk_twice {n : Nat} (hx : x.Denotes i)
    (h : 4 ≤ n → i.natAbs < base ^ (n - 1)) : Shrunk n (.twice x) := fun hn => by
  rw [Factors.largest_twice hx]
  exact h hn

/-- No factor of `g` is larger than those of `f`, and together they are smaller. -/
def Lesser (f g : Factors) : Prop := g.largest ≤ f.largest ∧ g.weight < f.weight

/-- Factors `g` as a split of `f`, whose longer factor has `n` digits, hands
them on. -/
def HandsOn (n : Nat) (f g : Factors) : Prop := Shrunk n g ∧ Lesser f g

section HandsOn

variable {n s t : Nat} {p q : Integer} {a b : Int}

/-- Values of two operands at a point, bounded by the sums of their chunks; that
of the left operand is below it. -/
theorem handsOn_pair (hx : left.Denotes i) (hy : right.Denotes j)
    (hsum : s < i.natAbs ∧ t ≤ j.natAbs)
    (hshort : 4 ≤ n → s < base ^ (n - 1) ∧ t < base ^ (n - 1)) (hp : p.Denotes a)
    (hq : q.Denotes b) (hle : a.natAbs ≤ s ∧ b.natAbs ≤ t) :
    HandsOn n (.pair left right) (.pair p q) := by
  refine ⟨shrunk_pair hp hq fun hn => ?_, ?_, ?_⟩
  · exact ⟨hle.1.trans_lt (hshort hn).1, hle.2.trans_lt (hshort hn).2⟩
  · rw [Factors.largest_pair hp hq, Factors.largest_pair hx hy]
    exact max_le_max (hle.1.trans hsum.1.le) (hle.2.trans hsum.2)
  · rw [Factors.weight_pair hp hq, Factors.weight_pair hx hy]
    exact Nat.add_lt_add_of_lt_of_le (hle.1.trans_lt hsum.1) (hle.2.trans hsum.2)

/-- A value of the chunks that is no larger than their sum may be handed on to a
square. -/
theorem handsOn_twice (hx : x.Denotes i) (hsum : s < i.natAbs)
    (hshort : 4 ≤ n → s < base ^ (n - 1)) (hp : p.Denotes a) (hle : a.natAbs ≤ s) :
    HandsOn n (.twice x) (.twice p) := by
  refine ⟨shrunk_twice hp fun hn => hle.trans_lt (hshort hn), ?_, ?_⟩
  · rw [Factors.largest_twice hp, Factors.largest_twice hx]
    exact (hle.trans_lt hsum).le
  · rw [Factors.weight_twice hp, Factors.weight_twice hx]
    exact hle.trans_lt hsum

end HandsOn

/-! ## Operands that are too short to split -/

/-- A product by two digits fits its words. -/
theorem fits_pair_of_le (h : right.digitCount ≤ 2) : (Factors.pair left right).Fits :=
  (min_le_right _ _).trans (h.trans (by decide))

theorem fits_twice_of_le (h : x.digitCount ≤ 2) : (Factors.twice x).Fits :=
  h.trans (by decide : 2 ≤ maxTerms)

/-! ## Two points and three points -/

/-- Toom-1.5 is exact over an exact multiplier; operands of equal lengths are
left to the schoolbook product, which they have to fit. -/
theorem mul15_yields (hx : left.Denotes i) (hy : right.Denotes j)
    (hfits : left.digitCount ≤ right.digitCount → may.abort ∨ (Factors.pair left right).Fits)
    (hm : multiply.SignedOn may (HandsOn left.digitCount (.pair left right))) (into : Integer) :
    (mul15 multiply left right into).Yields may (·.Denotes (i.natAbs * j.natAbs : Nat)) := by
  rw [mul15]
  set z := max (left.digitCount / 2) right.digitCount with hzdef
  split
  · next hschool =>
    rw [Bool.or_eq_true, decide_eq_true_eq, decide_eq_true_eq] at hschool
    refine mulGradeSchool_yields hx hy ?_ into
    by_cases hle : left.digitCount ≤ right.digitCount
    · exact hfits hle
    · exact .inr (fits_pair_of_le (by omega))
  · next hsplit =>
    rw [Bool.or_eq_true, decide_eq_true_eq, decide_eq_true_eq, not_or, not_le] at hsplit
    obtain ⟨a0, a1, hp0, hp1, ha, hfew, hsmall⟩ := exists_split2 hx hsplit.1
    have hq := hy.abs_natAbs
    have hsum : max a0 a1 < i.natAbs ∧ j.natAbs ≤ j.natAbs := by omega
    have hshort : max a0 a1 < base ^ (left.digitCount - 1) ∧
        j.natAbs < base ^ (left.digitCount - 1) :=
      ⟨max_lt_iff.mpr (hsmall _ (by omega) (by omega)), hy.digitCount_le_iff.mp (by omega)⟩
    have hands {p : Integer} {a : Int} (hp : p.Denotes a) (hle : a.natAbs ≤ max a0 a1) :=
      handsOn_pair hx hy hsum (fun _ => hshort) hp hq ⟨hle, le_rfl⟩
    refine (hm.pair hp0 hq (hands hp0 (by omega))).bind fun low hlow => ?_
    refine (hm.pair hp1 hq (hands hp1 (by omega))).bind fun high hhigh => ?_
    refine denotes_recombine into (.cons hlow (.cons hhigh .nil)) ?_
    simp only [List.foldr_cons, List.foldr_nil]
    rw [Nat.cast_mul, ha]
    ring

/-- The coefficients of a product of linear polynomials. -/
theorem interpolate2_spec {r0 r1 rInf : Integer} {a0 a1 b0 b1 : Int}
    (h0 : r0.Denotes (a0 * b0)) (h1 : r1.Denotes ((a0 + a1) * (b0 + b1)))
    (hInf : rInf.Denotes (a1 * b1)) :
    List.Forall₂ Denotes (interpolate2 r0 r1 rInf)
      [a0 * b0, (a0 + a1) * (b0 + b1) - a0 * b0 - a1 * b1, a1 * b1] :=
  .cons h0 (.cons ((h1.sub h0).sub hInf) (.cons hInf .nil))

/-- The interpolation in two chunks: the middle coefficient is the product of the
sums less the outer ones. -/
theorem interpolate2_eval (a0 a1 b0 b1 Z : Int) :
    [a0 * b0, (a0 + a1) * (b0 + b1) - a0 * b0 - a1 * b1, a1 * b1].foldr
      (fun c sum => sum * Z + c) 0 = (a0 + a1 * Z) * (b0 + b1 * Z) := by
  simp only [List.foldr_cons, List.foldr_nil]
  ring

/-- Toom-2 is exact over an exact multiplier. -/
theorem mul2_yields (hx : left.Denotes i) (hy : right.Denotes j)
    (hle : right.digitCount ≤ left.digitCount)
    (hm : multiply.SignedOn may (HandsOn left.digitCount (.pair left right))) (into : Integer) :
    (mul2 multiply left right into).Yields may (·.Denotes (i.natAbs * j.natAbs : Nat)) := by
  rw [mul2]
  set z := max (left.digitCount / 2) (right.digitCount / 2) with hzdef
  split
  · exact mulGradeSchool_yields hx hy (.inr (fits_pair_of_le (by omega))) into
  · next hz =>
    obtain ⟨a0, a1, hp0, hp1, ha, hfewa, hsmalla⟩ := exists_split2 hx hz
    obtain ⟨b0, b1, hq0, hq1, hb, hfewb, hsmallb⟩ := exists_split2 hy hz
    have hsum : a0 + a1 < i.natAbs ∧ b0 + b1 ≤ j.natAbs := by omega
    have hshort (hn : 4 ≤ left.digitCount) :
        a0 + a1 < base ^ (left.digitCount - 1) ∧ b0 + b1 < base ^ (left.digitCount - 1) := by
      have hleft := hsmalla (left.digitCount - 2) (by omega) (by omega)
      have hright := hsmallb (left.digitCount - 2) (by omega) (by omega)
      rw [base_pow_pred hn]
      omega
    have hands {p q : Integer} {a b : Int} (hp : p.Denotes a) (hq : q.Denotes b)
        (hle : a.natAbs ≤ a0 + a1 ∧ b.natAbs ≤ b0 + b1) :=
      handsOn_pair hx hy hsum hshort hp hq hle
    refine (hm.pair hp0 hq0 (hands hp0 hq0 (by omega))).bind fun r0 hr0 => ?_
    refine (hm.pair hp1 hq1 (hands hp1 hq1 (by omega))).bind fun rInf hrInf => ?_
    have hp := hp0.add hp1
    have hq := hq0.add hq1
    refine (hm.pair hp hq (hands hp hq (by omega))).bind fun r1 hr1 => ?_
    refine denotes_recombine into (interpolate2_spec hr0 hr1 hrInf) ?_
    rw [interpolate2_eval, Nat.cast_mul, ha, hb]

/-- The square in two chunks is exact over an exact multiplier. -/
theorem square2_yields (hx : x.Denotes i)
    (hm : multiply.SignedOn may (HandsOn x.digitCount (.twice x))) (into : Integer) :
    (square2 multiply x into).Yields may (·.Denotes (i.natAbs * i.natAbs : Nat)) := by
  rw [square2]
  set z := x.digitCount / 2 with hzdef
  split
  · exact squareGradeSchool_yields hx (.inr (fits_twice_of_le (by omega))) into
  · next hz =>
    obtain ⟨a0, a1, hp0, hp1, ha, hfew, hsmall⟩ := exists_split2 hx hz
    have hsum : a0 + a1 < i.natAbs := by omega
    have hshort (hn : 4 ≤ x.digitCount) : a0 + a1 < base ^ (x.digitCount - 1) := by
      have hchunks := hsmall (x.digitCount - 2) (by omega) (by omega)
      rw [base_pow_pred hn]
      omega
    have hands {p : Integer} {a : Int} (hp : p.Denotes a) (hle : a.natAbs ≤ a0 + a1) :=
      handsOn_twice hx hsum hshort hp hle
    refine (hm.twice hp0 (hands hp0 (by omega))).bind fun r0 hr0 => ?_
    refine (hm.twice hp1 (hands hp1 (by omega))).bind fun rInf hrInf => ?_
    have hp := hp0.add hp1
    refine (hm.twice hp (hands hp (by omega))).bind fun r1 hr1 => ?_
    refine denotes_recombine into (interpolate2_spec hr0 hr1 hrInf) ?_
    rw [interpolate2_eval, Nat.cast_mul, ha]

/-! ## Four points -/

/-- Toom-2.5 is exact over an exact multiplier. -/
theorem mul25_yields (hx : left.Denotes i) (hy : right.Denotes j)
    (hle : right.digitCount ≤ left.digitCount)
    (hm : multiply.SignedOn may (HandsOn left.digitCount (.pair left right))) (into : Integer) :
    (mul25 multiply left right into).Yields may (·.Denotes (i.natAbs * j.natAbs : Nat)) := by
  rw [mul25]
  set z := max (left.digitCount / 3) (right.digitCount / 2) with hzdef
  split
  · exact mulGradeSchool_yields hx hy (.inr (fits_pair_of_le (by omega))) into
  · next hz =>
    obtain ⟨a0, a1, a2, hp0, hp1, hp2, ha, hfewa, hsmalla⟩ := exists_split3 hx hz
    obtain ⟨b0, b1, hq0, hq1, hb, hfewb, hsmallb⟩ := exists_split2 hy hz
    have hsum : a0 + 2 * a1 + 4 * a2 < i.natAbs ∧ b0 + b1 ≤ j.natAbs := by omega
    have hshort (hn : 4 ≤ left.digitCount) :
        a0 + 2 * a1 + 4 * a2 < base ^ (left.digitCount - 1) ∧
          b0 + b1 < base ^ (left.digitCount - 1) := by
      have hleft := hsmalla (left.digitCount - 2) (by omega) (by omega)
      have hright := hsmallb (left.digitCount - 2) (by omega) (by omega)
      rw [base_pow_pred hn]
      omega
    have hands {p q : Integer} {a b : Int} (hp : p.Denotes a) (hq : q.Denotes b)
        (hle : a.natAbs ≤ a0 + 2 * a1 + 4 * a2 ∧ b.natAbs ≤ b0 + b1) :=
      handsOn_pair hx hy hsum hshort hp hq hle
    have hpPos := (hp0.add hp2).add hp1
    have hqPos := hq0.add hq1
    have hpNeg := (hp0.add hp2).sub hp1
    have hqNeg := hq0.sub hq1
    refine (hm.pair hp0 hq0 (hands hp0 hq0 (by omega))).bind fun r0 hr0 => ?_
    refine (hm.pair hp2 hq1 (hands hp2 hq1 (by omega))).bind fun rInf hrInf => ?_
    refine (hm.pair hpPos hqPos (hands hpPos hqPos (by omega))).bind fun rPos1 hrPos => ?_
    refine (hm.pair hpNeg hqNeg (hands hpNeg hqNeg (by omega))).bind fun rNeg1 hrNeg => ?_
    -- The odd part of the product is half the difference of its values at 1 and -1.
    have hdouble : (rPos1.sub rNeg1).Denotes (2 * (a1 * b0 + (a0 + a2) * b1)) :=
      (hrPos.sub hrNeg).of_eq (by ring)
    obtain ⟨odd, hok, hodd⟩ := exactHalf_spec hdouble
    refine (Outcome.Yields.liftM_ok (p := (Denotes · _)) hok hodd).bind fun odd hodd => ?_
    refine denotes_recombine into
      (.cons hr0 (.cons (hodd.sub hrInf) (.cons ((hodd.add hrNeg).sub hr0) (.cons hrInf .nil)))) ?_
    simp only [List.foldr_cons, List.foldr_nil]
    rw [Nat.cast_mul, ha, hb]
    ring

/-! ## Five points -/

/-- The values of a polynomial at 1, -1 and -2. -/
theorem evaluate3_spec {p0 p1 p2 : Integer} {a0 a1 a2 : Int} (h0 : p0.Denotes a0)
    (h1 : p1.Denotes a1) (h2 : p2.Denotes a2) :
    (evaluate3 p0 p1 p2).1.Denotes (a0 + a1 + a2) ∧
      (evaluate3 p0 p1 p2).2.1.Denotes (a0 - a1 + a2) ∧
      (evaluate3 p0 p1 p2).2.2.Denotes (a0 - 2 * a1 + 4 * a2) := by
  have hsum := h0.add h2
  refine ⟨?_, ?_, ?_⟩
  · exact (hsum.add h1).of_eq (by ring)
  · exact (hsum.sub h1).of_eq (by ring)
  · exact ((((hsum.sub h1).add h2).shiftLeft 1).sub h0).of_eq (by ring)

/-- The coefficients of a polynomial of degree four from its values. -/
theorem interpolate3_spec {r0 rPos1 rNeg1 rNeg2 rInf : Integer} {c0 c4 : Int} (c1 c2 c3 : Int)
    (h0 : r0.Denotes c0) (hPos : rPos1.Denotes (c0 + c1 + c2 + c3 + c4))
    (hNeg : rNeg1.Denotes (c0 - c1 + c2 - c3 + c4))
    (hNeg2 : rNeg2.Denotes (c0 - 2 * c1 + 4 * c2 - 8 * c3 + 16 * c4))
    (hInf : rInf.Denotes c4) :
    ∃ cs, interpolate3 r0 rPos1 rNeg1 rNeg2 rInf = .ok cs ∧
      List.Forall₂ Denotes cs [c0, c1, c2, c3, c4] := by
  have htriple : (rNeg2.sub rPos1).Denotes (3 * (c2 - c1 - 3 * c3 + 5 * c4)) :=
    (hNeg2.sub hPos).of_eq (by ring)
  obtain ⟨third, hthirdok, hthird⟩ := exactThird_spec htriple
  have hdouble : (rPos1.sub rNeg1).Denotes (2 * (c1 + c3)) :=
    (hPos.sub hNeg).of_eq (by ring)
  obtain ⟨odd, hoddok, hodd⟩ := exactHalf_spec hdouble
  have heven := hNeg.sub h0
  have hdouble : (third.subFrom (rNeg1.sub r0)).Denotes (2 * (c3 - 2 * c4)) :=
    (hthird.subFrom heven).of_eq (by ring)
  obtain ⟨half, hhalfok, hhalf⟩ := exactHalf_spec hdouble
  have h3 : (half.add (rInf.shiftLeft 1)).Denotes c3 :=
    (hhalf.add (hInf.shiftLeft 1)).of_eq (by ring)
  have h2 : ((((rNeg1.sub r0).add odd).sub rInf)).Denotes c2 :=
    ((heven.add hodd).sub hInf).of_eq (by ring)
  have h1 : (odd.sub (half.add (rInf.shiftLeft 1))).Denotes c1 :=
    (hodd.sub h3).of_eq (by ring)
  refine ⟨_, ?_, .cons h0 (.cons h1 (.cons h2 (.cons h3 (.cons hInf .nil))))⟩
  simp only [interpolate3, bind, Except.bind, hthirdok, hoddok, hhalfok]
  rfl

/-- Toom-3 is exact over an exact multiplier. -/
theorem mul3_yields (hx : left.Denotes i) (hy : right.Denotes j)
    (hle : right.digitCount ≤ left.digitCount)
    (hm : multiply.SignedOn may (HandsOn left.digitCount (.pair left right))) (into : Integer) :
    (mul3 multiply left right into).Yields may (·.Denotes (i.natAbs * j.natAbs : Nat)) := by
  rw [mul3]
  set z := max (left.digitCount / 3) (right.digitCount / 3) with hzdef
  split
  · exact mulGradeSchool_yields hx hy (.inr (fits_pair_of_le (by omega))) into
  · next hz =>
    obtain ⟨a0, a1, a2, hp0, hp1, hp2, ha, hfewa, hsmalla⟩ := exists_split3 hx hz
    obtain ⟨b0, b1, b2, hq0, hq1, hq2, hb, hfewb, hsmallb⟩ := exists_split3 hy hz
    have hsum : a0 + 2 * a1 + 4 * a2 < i.natAbs ∧ b0 + 2 * b1 + 4 * b2 ≤ j.natAbs := by omega
    have hshort (hn : 4 ≤ left.digitCount) :
        a0 + 2 * a1 + 4 * a2 < base ^ (left.digitCount - 1) ∧
          b0 + 2 * b1 + 4 * b2 < base ^ (left.digitCount - 1) := by
      have hleft := hsmalla (left.digitCount - 2) (by omega) (by omega)
      have hright := hsmallb (left.digitCount - 2) (by omega) (by omega)
      rw [base_pow_pred hn]
      omega
    have hands {p q : Integer} {a b : Int} (hp : p.Denotes a) (hq : q.Denotes b)
        (hle : a.natAbs ≤ a0 + 2 * a1 + 4 * a2 ∧ b.natAbs ≤ b0 + 2 * b1 + 4 * b2) :=
      handsOn_pair hx hy hsum hshort hp hq hle
    obtain ⟨hpPos, hpNeg, hpNeg2⟩ := evaluate3_spec hp0 hp1 hp2
    obtain ⟨hqPos, hqNeg, hqNeg2⟩ := evaluate3_spec hq0 hq1 hq2
    refine (hm.pair hp0 hq0 (hands hp0 hq0 (by omega))).bind fun r0 hr0 => ?_
    refine (hm.pair hp2 hq2 (hands hp2 hq2 (by omega))).bind fun rInf hrInf => ?_
    refine (hm.pair hpPos hqPos (hands hpPos hqPos (by omega))).bind fun rPos1 hrPos => ?_
    refine (hm.pair hpNeg hqNeg (hands hpNeg hqNeg (by omega))).bind fun rNeg1 hrNeg => ?_
    refine (hm.pair hpNeg2 hqNeg2 (hands hpNeg2 hqNeg2 (by omega))).bind fun rNeg2 hrNeg2 => ?_
    obtain ⟨cs, hok, hcs⟩ := interpolate3_spec (a0 * b1 + a1 * b0)
      (a0 * b2 + a1 * b1 + a2 * b0) (a1 * b2 + a2 * b1) hr0
      (hrPos.of_eq (by ring)) (hrNeg.of_eq (by ring)) (hrNeg2.of_eq (by ring)) hrInf
    refine (Outcome.Yields.liftM_ok (p := (List.Forall₂ Denotes · _)) hok hcs).bind fun cs hcs => ?_
    refine denotes_recombine into hcs ?_
    simp only [List.foldr_cons, List.foldr_nil]
    rw [Nat.cast_mul, ha, hb]
    ring

/-- The square in three chunks is exact over an exact multiplier. -/
theorem square3_yields (hx : x.Denotes i)
    (hm : multiply.SignedOn may (HandsOn x.digitCount (.twice x))) (into : Integer) :
    (square3 multiply x into).Yields may (·.Denotes (i.natAbs * i.natAbs : Nat)) := by
  rw [square3]
  set z := x.digitCount / 3 with hzdef
  split
  · exact squareGradeSchool_yields hx (.inr (fits_twice_of_le (by omega))) into
  · next hz =>
    obtain ⟨a0, a1, a2, hp0, hp1, hp2, ha, hfew, hsmall⟩ := exists_split3 hx hz
    have hsum : a0 + 2 * a1 + 4 * a2 < i.natAbs := by omega
    have hshort (hn : 4 ≤ x.digitCount) : a0 + 2 * a1 + 4 * a2 < base ^ (x.digitCount - 1) := by
      have hchunks := hsmall (x.digitCount - 2) (by omega) (by omega)
      rw [base_pow_pred hn]
      omega
    have hands {p : Integer} {a : Int} (hp : p.Denotes a) (hle : a.natAbs ≤ a0 + 2 * a1 + 4 * a2) :=
      handsOn_twice hx hsum hshort hp hle
    obtain ⟨hPos, hNeg, hNeg2⟩ := evaluate3_spec hp0 hp1 hp2
    refine (hm.twice hp0 (hands hp0 (by omega))).bind fun r0 hr0 => ?_
    refine (hm.twice hp2 (hands hp2 (by omega))).bind fun rInf hrInf => ?_
    refine (hm.twice hPos (hands hPos (by omega))).bind fun rPos1 hrPos => ?_
    refine (hm.twice hNeg (hands hNeg (by omega))).bind fun rNeg1 hrNeg => ?_
    refine (hm.twice hNeg2 (hands hNeg2 (by omega))).bind fun rNeg2 hrNeg2 => ?_
    obtain ⟨cs, hok, hcs⟩ := interpolate3_spec (a0 * a1 + a1 * a0)
      (a0 * a2 + a1 * a1 + a2 * a0) (a1 * a2 + a2 * a1) hr0
      (hrPos.of_eq (by ring)) (hrNeg.of_eq (by ring)) (hrNeg2.of_eq (by ring)) hrInf
    refine (Outcome.Yields.liftM_ok (p := (List.Forall₂ Denotes · _)) hok hcs).bind fun cs hcs => ?_
    refine denotes_recombine into hcs ?_
    simp only [List.foldr_cons, List.foldr_nil]
    rw [Nat.cast_mul, ha]
    ring

/-! ## All splits -/

/-- The outcome is the number `n`. -/
def Returns (o : Outcome Integer) (n : Nat) : Prop := ∃ r, o = .value r ∧ r.Denotes n

/-- With a multiplier that returns exact signed products and squares, every
split returns the exact product of the magnitudes, for all lengths of which the
left one is not smaller, whatever it is written into.  So no halving and no
division by three ever finds a remainder.  Only operands of equal lengths past
`maxTerms` digits, which Toom-1.5 does not split, can stop in a machine word of
the schoolbook product. -/
theorem toomCook_exact (hm : multiply.SignedOn .returning fun _ => True)
    (hx : left.Canonical) (hy : right.Canonical) (hle : right.digitCount ≤ left.digitCount)
    (hz : x.Canonical) (into : Integer) :
    (Returns (mul15 multiply left right into) (left.magnitude * right.magnitude) ∨
      mul15 multiply left right into = .aborted ∧ left.digitCount = right.digitCount ∧
        maxTerms < left.digitCount) ∧
    Returns (mul2 multiply left right into) (left.magnitude * right.magnitude) ∧
    Returns (mul25 multiply left right into) (left.magnitude * right.magnitude) ∧
    Returns (mul3 multiply left right into) (left.magnitude * right.magnitude) ∧
    Returns (square2 multiply x into) (x.magnitude * x.magnitude) ∧
    Returns (square3 multiply x into) (x.magnitude * x.magnitude) := by
  have hpair {o : Outcome Integer} (h : o.Yields .returning
      (·.Denotes (left.toInt.natAbs * right.toInt.natAbs : Nat))) :
      Returns o (left.magnitude * right.magnitude) := by
    rw [natAbs_toInt, natAbs_toInt] at h
    exact Outcome.yields_returning.mp h
  have htwice {o : Outcome Integer} (h : o.Yields .returning
      (·.Denotes (x.toInt.natAbs * x.toInt.natAbs : Nat))) :
      Returns o (x.magnitude * x.magnitude) := by
    rw [natAbs_toInt] at h
    exact Outcome.yields_returning.mp h
  have hx := hx.denotes
  have hy := hy.denotes
  have hz := hz.denotes
  refine ⟨?_, hpair (mul2_yields hx hy hle hm.of_returning into),
    hpair (mul25_yields hx hy hle hm.of_returning into),
    hpair (mul3_yields hx hy hle hm.of_returning into),
    htwice (square2_yields hz hm.of_returning into),
    htwice (square3_yields hz hm.of_returning into)⟩
  -- Toom-1.5 may only stop where it does not split.
  let may : Endings :=
    ⟨False, left.digitCount = right.digitCount ∧ maxTerms < left.digitCount, False⟩
  have hfits (hge : left.digitCount ≤ right.digitCount) :
      may.abort ∨ (Factors.pair left right).Fits := by
    by_cases hlong : maxTerms < left.digitCount
    · exact .inl ⟨le_antisymm hge hle, hlong⟩
    · exact .inr ((min_le_left _ _).trans (not_lt.mp hlong))
  have hyields := mul15_yields hx hy hfits hm.of_returning into
  rw [natAbs_toInt, natAbs_toInt] at hyields
  cases h : mul15 multiply left right into with
  | value r =>
    rw [h] at hyields
    exact .inl ⟨r, rfl, hyields⟩
  | failure e =>
    rw [h] at hyields
    exact False.elim hyields
  | aborted =>
    rw [h] at hyields
    exact .inr ⟨rfl, hyields⟩
  | exhausted =>
    rw [h] at hyields
    exact False.elim hyields

/-- Operands of four and two digits, in all six splits: the right one has an empty
last chunk and is negative at -1 and at -2. -/
theorem toomCook_exact_negative_values :
    let multiply : Multiplier := fun f => .value (ofNat f.magnitude)
    let left : Integer := ⟨true, [6, 1, 3, 2, 0]⟩
    let right : Integer := ⟨false, [7, 9]⟩
    let into : Integer := ⟨true, [5]⟩
    multiply.SignedOn .returning (fun _ => True) ∧ left.Canonical ∧ right.Canonical ∧
      right.digitCount ≤ left.digitCount ∧
      Returns (mul15 multiply left right into) (left.magnitude * right.magnitude) ∧
      Returns (mul2 multiply left right into) (left.magnitude * right.magnitude) ∧
      Returns (mul25 multiply left right into) (left.magnitude * right.magnitude) ∧
      Returns (mul3 multiply left right into) (left.magnitude * right.magnitude) ∧
      Returns (square2 multiply left into) (left.magnitude * left.magnitude) ∧
      Returns (square3 multiply left into) (left.magnitude * left.magnitude) := by
  intro multiply left right into
  have hm : multiply.ExactOn .returning fun _ => True := fun f _ _ => denotes_ofNat f.magnitude
  have hx : left.Canonical := ⟨by simp [left, base], fun _ => rfl⟩
  have hy : right.Canonical := ⟨by simp [right, base], fun _ => rfl⟩
  have hle : right.digitCount ≤ left.digitCount := by decide
  have hne : left.digitCount ≠ right.digitCount := by decide
  obtain ⟨hmul15, hrest⟩ := toomCook_exact hm.signedOn hx hy hle hx into
  exact ⟨hm.signedOn, hx, hy, hle, hmul15.resolve_right fun h => hne h.2.1, hrest⟩

end Multiprecision.ToomCook
