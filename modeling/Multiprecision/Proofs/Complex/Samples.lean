import Mathlib
import Multiprecision.Complex.Product
import Multiprecision.Proofs.Digits.Regroup
import Multiprecision.Proofs.Double.Integers
import Multiprecision.Proofs.Integer
import Multiprecision.Proofs.Outcome

/-!
# Multiprecision.Proofs.Complex.Samples

Integers as samples, and back:

* `ofInteger_eq` — the samples are the groups of bits of the magnitude;
* `roundSample_eq` — samples that are numbers are rounded to the nearest one;
* `toInteger_eq` — the rounded samples are summed, each in its place.

Whatever samples are, the integer that they are rounded to is canonical
(`toInteger_ensures`), and so is a product by transforms of doubles
(`product_ensures`).  Nothing is said here of the value of a product.
-/

namespace Multiprecision.Complex

open Digits Double Integer

variable {width : Nat}

/-! ## Checks -/

/-- Widths from 1 to 30 are allowed, and no others. -/
theorem checkWidth_eq_ok_iff : checkWidth width = .ok () ↔ 1 ≤ width ∧ width ≤ 30 := by
  have hwidth : Digits.width = 30 := rfl
  unfold checkWidth
  split <;> simp_all

/-- A checked length has room for the chunks. -/
theorem le_of_checkLength {len count : Nat} (h : checkLength len count = .ok ()) :
    count ≤ len := by
  unfold checkLength at h
  split at h
  · cases h
  · next hroom =>
    simp at hroom
    exact hroom.2

theorem checkLength_two_pow {m count : Nat} (h : count ≤ 2 ^ m) :
    checkLength (2 ^ m) count = .ok () := by
  unfold checkLength
  simp [Nat.log2_two_pow, not_lt.mpr h]

/-! ## From integers to samples -/

section OfInteger

variable {x : Integer} {i : Int}

/-- The chunks have at most `width` bits, and write the magnitude. -/
theorem chunks_spec (hx : x.Denotes i) (hpos : 0 < width) :
    (∀ c ∈ chunks x width, c < 2 ^ width) ∧
      Nat.ofDigits (2 ^ width) (chunks x width) = i.natAbs := by
  obtain ⟨hrange, hvalue⟩ := hx.significant
  rw [← hvalue, ← ofDigits_toNat]
  exact regroup_spec hpos hrange.lt

theorem ofChunk_zero : ofChunk 0 = zero := rfl

/-- A sequence that is cut off first has no more entries to cut off. -/
theorem padded_take (xs : Sequence) (n : Nat) :
    (Sequence.padded (xs.take n) n) = Sequence.padded xs n := by
  have hmissing : n - min n xs.length = n - xs.length := by omega
  simp [Sequence.padded, hmissing]

/-- The samples are the groups of bits of the magnitude. -/
theorem ofInteger_eq (hx : x.Denotes i) {len : Nat} (hwidth : checkWidth width = .ok ())
    (hlength : checkLength len (chunkCount x width) = .ok ()) :
    ofInteger x width len =
      .ok ((groups width len i.natAbs).map fun c => ofChunk (UInt32.ofNat c)) := by
  obtain ⟨hlt, hvalue⟩ := chunks_spec hx (checkWidth_eq_ok_iff.mp hwidth).1
  unfold ofInteger
  rw [hwidth, hlength, ← hvalue, ← take_append_replicate_eq_groups hlt, List.map_take]
  refine congrArg Except.ok ?_
  rw [padded_take]
  simp [Sequence.padded, Sequence.zeros, ofChunk_zero]

end OfInteger

/-! ## From samples to integers -/

/-- The limit for samples is `2^100` exactly. -/
theorem holds_sampleLimit : Holds sampleLimit (2 ^ 100) := by
  have hroot : Holds ((1 : UInt32) <<< 25).toFloat (2 ^ 25) := by
    have hholds := holds_toFloat ((1 : UInt32) <<< 25)
    have hvalue : ((1 : UInt32) <<< 25).toNat = 2 ^ 25 := by decide
    rw [hvalue] at hholds
    exact_mod_cast hholds
  have hbound {n : ℕ} (hn : n < 1023) : (2 : ℚ) ^ n < 2 ^ (1023 : ℤ) := by
    rw [← zpow_natCast]
    exact two_zpow_lt (by exact_mod_cast hn)
  have hsquare : Holds _ (2 ^ 25 * 2 ^ 25) :=
    hroot.mul_exact hroot (by rw [← pow_add]; exact hbound (by decide))
      ⟨1, 50, by decide, by decide, by norm_num⟩
  have hlimit : Holds sampleLimit (2 ^ 25 * 2 ^ 25 * (2 ^ 25 * 2 ^ 25)) :=
    hsquare.mul_exact hsquare (by simp only [← pow_add]; exact hbound (by decide))
      ⟨1, 100, by decide, by decide, by norm_num⟩
  simpa only [← pow_add] using hlimit

/-- Samples that are numbers are rounded to the nearest integer. -/
theorem roundSample_eq {z : Complex} {q : ℚ} (h : IsNumber z.re q)
    (hlt : ⌊q + 1 / 2⌋₊ < 2 ^ 100) (i : Nat) : roundSample i z = .ok ⌊q + 1 / 2⌋₊ := by
  have hround := h.round
  have hbelow : Binary.round z.re < sampleLimit :=
    (hround.lt_iff holds_sampleLimit (by positivity)).mpr (by exact_mod_cast hlt)
  unfold roundSample
  simp [hround.isFinite, hround.zero_le, hbelow, hround.toNat]

/-- What a sample is rounded to is below the limit. -/
theorem roundSample_lt (i : Nat) (z : Complex) : Ensures (· < 2 ^ 100) (roundSample i z) := by
  unfold roundSample
  dsimp only
  split
  · next haccepted =>
    simp only [Bool.and_eq_true, decide_eq_true_eq] at haccepted
    obtain ⟨⟨hfinite, hnonneg⟩, hbelow⟩ := haccepted
    obtain ⟨q, hq⟩ := exists_isNumber hfinite hnonneg
    have hlt : q < 2 ^ 100 := (hq.lt_iff holds_sampleLimit (by positivity)).mp hbelow
    rw [hq.toNat]
    exact ensures_ok ((Nat.floor_lt hq.nonneg).mpr (by exact_mod_cast hlt))
  · exact ensures_error

/-- Samples that are rounded are below the limit. -/
theorem roundSamples_lt (i : Nat) (zs : Sequence) :
    Ensures (∀ n ∈ ·, n < 2 ^ 100) (roundSamples i zs) := by
  induction zs generalizing i with
  | nil => exact ensures_ok (by simp)
  | cons z zs ih =>
    refine (roundSample_lt i z).bind fun n hn => (ih (i + 1)).bind fun ns hns => ensures_ok ?_
    exact List.forall_mem_cons.mpr ⟨hn, hns⟩

/-- A sample is an integer below the limit. -/
def IsSample (z : Complex) (n : Nat) : Prop := IsNumber z.re n ∧ n < 2 ^ 100

/-- A sample is rounded to itself. -/
theorem IsSample.roundSample_eq {z : Complex} {n : Nat} (h : IsSample z n) (i : Nat) :
    roundSample i z = .ok n := by
  have hround := Complex.roundSample_eq h.1
  rw [floor_natCast_add_half] at hround
  exact hround h.2 i

/-- Samples are rounded to themselves. -/
theorem roundSamples_eq {zs : Sequence} {ns : List Nat} (h : List.Forall₂ IsSample zs ns)
    (i : Nat) : roundSamples i zs = .ok ns := by
  induction h generalizing i with
  | nil => rfl
  | cons hz _ ih =>
    unfold roundSamples
    rw [hz.roundSample_eq i, ih (i + 1)]
    rfl

/-- The chunks of the last carry have at most `width` bits. -/
theorem carryChunks_lt (width carry : Nat) : ∀ c ∈ carryChunks width carry, c < 2 ^ width := by
  induction carry using Nat.strong_induction_on with
  | _ carry ih =>
    intro c hc
    rw [carryChunks] at hc
    split at hc
    · exact absurd hc List.not_mem_nil
    · next hcarry =>
      rcases List.mem_cons.mp hc with rfl | hc
      · exact Nat.mod_lt _ (Nat.two_pow_pos width)
      · refine ih _ (Nat.div_lt_self ?_ (Nat.one_lt_two_pow ?_)) c hc <;> omega

/-- The chunks with their carries passed on have at most `width` bits. -/
theorem carried_lt (width : Nat) (ns : List Nat) (carry : Nat) :
    ∀ c ∈ carried width ns carry, c < 2 ^ width := by
  induction ns generalizing carry with
  | nil => exact carryChunks_lt width carry
  | cons n ns ih =>
    intro c hc
    rcases List.mem_cons.mp hc with rfl | hc
    · exact Nat.mod_lt _ (Nat.two_pow_pos width)
    · exact ih _ c hc

/-- The chunks of a carry have its value. -/
theorem ofDigits_carryChunks (hpos : 0 < width) (carry : Nat) :
    Nat.ofDigits (2 ^ width) (carryChunks width carry) = carry := by
  induction carry using Nat.strong_induction_on with
  | _ carry ih =>
    unfold carryChunks
    split
    · next hcarry => simp [hcarry.resolve_right hpos.ne']
    · next hcarry =>
      have hsmaller : carry / 2 ^ width < carry :=
        Nat.div_lt_self (by omega) (Nat.one_lt_two_pow hpos.ne')
      rw [Nat.ofDigits_cons]
      exact (congrArg (carry % 2 ^ width + 2 ^ width * ·) (ih _ hsmaller)).trans
        (Nat.mod_add_div carry _)

/-- Carrying leaves the value. -/
theorem ofDigits_carried (hpos : 0 < width) (ns : List Nat) (carry : Nat) :
    Nat.ofDigits (2 ^ width) (carried width ns carry) =
      carry + Nat.ofDigits (2 ^ width) ns := by
  induction ns generalizing carry with
  | nil => simp [carried, ofDigits_carryChunks hpos]
  | cons n ns ih =>
    have hdm := Nat.mod_add_div (carry + n) (2 ^ width)
    simp only [carried, Nat.ofDigits_cons, ih, Nat.pow_eq, mul_add]
    omega

/-- The rounded samples are summed, each in its place. -/
theorem toInteger_eq {zs : Sequence} {ns : List Nat} (h : List.Forall₂ IsSample zs ns)
    (hwidth : checkWidth width = .ok ()) :
    ∃ y, toInteger zs width = .ok y ∧ y.Denotes (Nat.ofDigits (2 ^ width) ns : Nat) := by
  obtain ⟨hrange, hvalue⟩ := regroup_digits (carried_lt width ns 0)
  have hcarried := ofDigits_carried (checkWidth_eq_ok_iff.mp hwidth).1 ns 0
  refine ⟨⟨false, (regroup width Digits.width (carried width ns 0) 0 0).map UInt32.ofNat⟩, ?_,
    denotes_nonneg hrange ?_⟩
  · unfold toInteger
    rw [hwidth, roundSamples_eq h]
    rfl
  · rw [hvalue, hcarried, zero_add]

/-- Whatever is read from a sequence is canonical. -/
theorem toInteger_ensures (xs : Sequence) (width : Nat) :
    Ensures Canonical (toInteger xs width) := by
  refine (ensures_true _).bind fun _ _ => (ensures_true _).bind fun ns _ => ensures_ok ?_
  exact (denotes_nonneg (inRange_regroup (carried_lt width ns 0)) rfl).canonical

/-- Whatever the product through samples returns is canonical. -/
theorem product_ensures (f : Factors) : Ensures Canonical (product f) := by
  unfold product
  split
  split
  · exact ensures_ok denotes_zero.canonical
  · dsimp only
    split
    · exact ensures_error
    · refine (ensures_true _).bind fun samples _ => ?_
      refine (toInteger_ensures samples chunkBits).bind fun r hr => ensures_ok ?_
      exact canonical_withSign f.negative hr.1

end Multiprecision.Complex
