import Mathlib
import Multiprecision.Complex.Samples.Checked
import Multiprecision.Proofs.Complex.Samples
import Multiprecision.Proofs.Digits.Regroup.Checked

/-!
# Multiprecision.Proofs.Complex.Samples.Checked

Integers become samples, and samples integers, without a word that is too
narrow or a sample that is not there:

* `ofInteger?_eq`, `toInteger?_eq` — for all arguments the checked conversions
  end as the unchecked ones do;
* `samples_exact` — what they return, and that the one undoes the other.

A carry stays below `2^100`: a sample adds less than that to it, and a chunk
takes at least half away.
-/

namespace Multiprecision.Complex

open Digits Double Integer

variable {width : Nat}

/-! ## From integers to samples -/

/-- A chunk is the lowest bits of the accumulator. -/
theorem chunkOf_eq (h : width ≤ 30) (acc : UInt64) :
    chunkOf width acc = UInt32.ofNat (acc.toNat % 2 ^ width) := by
  have hone : ((1 : UInt64) <<< UInt64.ofNat width).toNat = 2 ^ width := by
    have hlt : 2 ^ width < 2 ^ 64 := Nat.pow_lt_pow_right (by decide) (by omega)
    rw [UInt64.toNat_shiftLeft, toNat_ofNat_of_lt_64 (by omega),
      Nat.mod_eq_of_lt (by omega : width < 64), Nat.shiftLeft_eq, UInt64.toNat_one, Nat.one_mul,
      Nat.mod_eq_of_lt hlt]
  have hle : (1 : UInt64) ≤ 1 <<< UInt64.ofNat width := by
    rw [UInt64.le_iff_toNat_le, hone]
    exact Nat.one_le_two_pow
  apply UInt32.toNat_inj.mp
  rw [chunkOf, UInt64.toNat_toUInt32, UInt64.toNat_and, UInt64.toNat_sub_of_le _ _ hle, hone,
    UInt64.toNat_one, Nat.and_two_pow_sub_one_eq_mod, UInt32.toNat_ofNat']

/-- Zeros are not written. -/
theorem writeChunks?_zeros {accs : List UInt64} (h : ∀ acc ∈ accs, chunkOf width acc = 0)
    (i : Nat) (zs : Sequence) : writeChunks? width i accs zs = some zs := by
  induction accs generalizing i with
  | nil => rfl
  | cons acc accs ih =>
    obtain ⟨hacc, haccs⟩ := List.forall_mem_cons.mp h
    unfold writeChunks?
    rw [if_pos hacc]
    exact ih haccs (i + 1)

/-- Behind the samples that are written already, the chunks are written as
far as there are samples. -/
theorem writeChunks?_eq {accs : List UInt64} {n : Nat}
    (h : ∀ acc ∈ accs.drop n, chunkOf width acc = 0) (front : Sequence) :
    writeChunks? width front.length accs (front ++ Sequence.zeros n) =
      some (front ++ Sequence.padded (accs.map fun acc => ofChunk (chunkOf width acc)) n) := by
  induction accs generalizing n front with
  | nil => simp [writeChunks?, Sequence.padded]
  | cons acc accs ih =>
    cases n with
    | zero =>
      rw [List.drop_zero] at h
      rw [writeChunks?_zeros h]
      simp [Sequence.padded]
    | succ n =>
      have hnext : front ++ Sequence.padded
            ((acc :: accs).map fun acc => ofChunk (chunkOf width acc)) (n + 1) =
          front ++ [ofChunk (chunkOf width acc)] ++
            Sequence.padded (accs.map fun acc => ofChunk (chunkOf width acc)) n := by
        simp [Sequence.padded]
      have hrest := ih h (front ++ [ofChunk (chunkOf width acc)])
      rw [List.length_append, List.length_singleton, ← hnext] at hrest
      rw [← hrest, writeChunks?]
      by_cases hzero : chunkOf width acc = 0
      · rw [if_pos hzero, hzero, ofChunk_zero]
        simp [Sequence.zeros, List.replicate_succ]
      · rw [if_neg hzero, if_pos (by simp [Sequence.zeros])]
        simp [Sequence.zeros, List.replicate_succ]

/-- A number with room in a sequence is below the power of two with all its bits. -/
theorem natAbs_lt_of_chunkCount_le {x : Integer} {i : Int} (hx : x.Denotes i) (hpos : 0 < width)
    {len : Nat} (hroom : chunkCount x width ≤ len) : i.natAbs < 2 ^ (width * len) := by
  rw [chunkCount, hx.bitLength, Nat.div_le_iff_le_mul_add_pred hpos] at hroom
  exact Nat.size_le.mp (by omega)

/-- Chunks that there is no room for are zero. -/
theorem chunks_drop {x : Integer} {i : Int} (hx : x.Denotes i) (hpos : 0 < width) {len : Nat}
    (hroom : chunkCount x width ≤ len) : ∀ c ∈ (chunks x width).drop len, c = 0 := by
  obtain ⟨hlt, hvalue⟩ := chunks_spec hx hpos
  have hempty : Nat.ofDigits (2 ^ width) ((chunks x width).drop len) = 0 := by
    rw [← Nat.ofDigits_div_pow_eq_ofDigits_drop len (Nat.two_pow_pos width) _ hlt, hvalue,
      ← pow_mul]
    exact Nat.div_eq_of_lt (natAbs_lt_of_chunkCount_le hx hpos hroom)
  exact Nat.digits_zero_of_eq_zero (Nat.two_pow_pos width).ne' hempty

/-- The accumulators that are put out have the chunks at their low ends. -/
theorem exists_accumulators {x : Integer} {i : Int} (hx : x.Denotes i) (hpos : 0 < width)
    (hle : width ≤ 30) :
    ∃ accs, regroup? Digits.width width (x.significant.map (·.toUInt64)) 0 0 = some accs ∧
      accs.map (chunkOf width) = (chunks x width).map UInt32.ofNat := by
  have hroom : width + Digits.width ≤ 64 := Nat.add_le_add hle (by decide : Digits.width ≤ 34)
  have hitems : ∀ d ∈ x.significant.map (·.toUInt64), d.toNat < 2 ^ Digits.width := by
    intro d hd
    obtain ⟨e, he, rfl⟩ := List.mem_map.mp hd
    exact hx.significant.1 e he
  obtain ⟨accs, haccs, hmap⟩ := regroup?_spec hpos hroom (by omega) hitems
  refine ⟨accs, haccs, ?_⟩
  have hchunks : chunks x width = accs.map (·.toNat % 2 ^ width) := by
    rw [hmap, List.map_map]
    rfl
  rw [hchunks, List.map_map]
  exact List.map_congr_left fun acc _ => chunkOf_eq hle acc

/-- Samples are written where they are, and no bit is lost on the way. -/
theorem ofInteger?_eq {x : Integer} {i : Int} (hx : x.Denotes i) (width len : Nat) :
    ofInteger? x width len = (liftM (ofInteger x width len) : Outcome Sequence) := by
  unfold ofInteger? ofInteger
  cases hwidth : checkWidth width with
  | error e => rfl
  | ok =>
    cases hlength : checkLength len (chunkCount x width) with
    | error e => rfl
    | ok =>
      obtain ⟨hpos, hle⟩ := checkWidth_eq_ok_iff.mp hwidth
      obtain ⟨accs, haccs, hmap⟩ := exists_accumulators hx hpos hle
      have hbeyond : ∀ acc ∈ accs.drop len, chunkOf width acc = 0 := by
        have hzero := chunks_drop hx hpos (le_of_checkLength hlength)
        have hdrop : (accs.drop len).map (chunkOf width) =
            ((chunks x width).drop len).map UInt32.ofNat := by
          rw [List.map_drop, hmap, List.map_drop]
        intro acc hacc
        obtain ⟨c, hc, hchunk⟩ := List.mem_map.mp (hdrop ▸ List.mem_map_of_mem hacc)
        rw [← hchunk, hzero c hc]
        rfl
      have hsamples : accs.map (fun acc => ofChunk (chunkOf width acc)) =
          (chunks x width).map fun c => ofChunk (UInt32.ofNat c) := by
        simpa [Function.comp_def] using congrArg (List.map ofChunk) hmap
      have hwritten := writeChunks?_eq hbeyond []
      rw [hsamples] at hwritten
      change Outcome.ofChecked _ >>= (fun accs =>
        Outcome.ofChecked (writeChunks? width 0 accs (Sequence.zeros len))) = Outcome.value _
      rw [haccs, List.map_take, padded_take]
      exact congrArg Outcome.ofChecked hwritten

/-! ## From samples to integers -/

/-- A sample and a carry fit their word. -/
theorem addCarry?_eq {carry n : Nat} (hcarry : carry < 2 ^ 100) (hn : n < 2 ^ 100) :
    addCarry? carry n = some (carry + n) := by
  refine if_pos (lt_of_lt_of_le (Nat.add_lt_add hcarry hn) ?_)
  decide

/-- A carry is never wider than a sample. -/
theorem carried?_eq (hpos : 1 ≤ width) (hle : width ≤ 30) {ns : List Nat}
    (hns : ∀ n ∈ ns, n < 2 ^ 100) {carry : Nat} (hcarry : carry < 2 ^ 100) :
    ∃ items, carried? width ns carry = some items ∧
      items.map (·.toNat) = carried width ns carry := by
  have hnarrow : 2 ^ width ≤ 2 ^ 64 := Nat.pow_le_pow_right (by decide) (by omega)
  have hword {c : Nat} (hc : c < 2 ^ width) : (UInt64.ofNat c).toNat = c :=
    UInt64.toNat_ofNat_of_lt (hc.trans_le hnarrow)
  induction ns generalizing carry with
  | nil =>
    refine ⟨_, rfl, ?_⟩
    rw [List.map_map]
    exact (List.map_congr_left fun c hc => hword (carryChunks_lt width carry c hc)).trans
      (List.map_id _)
  | cons n ns ih =>
    obtain ⟨hn, hns⟩ := List.forall_mem_cons.mp hns
    have htwo : 2 ^ 1 ≤ 2 ^ width := Nat.pow_le_pow_right (by decide) hpos
    have hsmaller : (carry + n) / 2 ^ width < 2 ^ 100 := by
      refine Nat.div_lt_of_lt_mul ?_
      calc
        _ < 2 ^ 1 * 2 ^ 100 := by omega
        _ ≤ 2 ^ width * 2 ^ 100 := Nat.mul_le_mul_right _ htwo
    obtain ⟨items, hitems, hmap⟩ := ih hns hsmaller
    refine ⟨UInt64.ofNat ((carry + n) % 2 ^ width) :: items, ?_, ?_⟩
    · unfold carried?
      rw [addCarry?_eq hcarry hn]
      simp only [Option.bind_eq_bind, Option.bind_some, Nat.pow_eq]
      rw [hitems]
      rfl
    · rw [List.map_cons, hmap, hword (Nat.mod_lt _ (Nat.two_pow_pos width))]
      rfl

/-- The lowest bits of the accumulator as a digit. -/
theorem toUInt32_and_mask (acc : UInt64) :
    acc.toUInt32 &&& mask = UInt32.ofNat (acc.toNat % 2 ^ Digits.width) := by
  have hwidth : Digits.width = 30 := rfl
  apply UInt32.toNat_inj.mp
  rw [toNat_and_mask, UInt64.toNat_toUInt32, UInt32.toNat_ofNat', base_eq, hwidth]
  omega

/-- No sequence of samples is too large for the words. -/
theorem toInteger?_eq (zs : Sequence) (width : Nat) :
    toInteger? zs width = (liftM (toInteger zs width) : Outcome Integer) := by
  unfold toInteger? toInteger
  cases hwidth : checkWidth width with
  | error e => rfl
  | ok =>
    cases hrounded : roundSamples 0 zs with
    | error e => rfl
    | ok ns =>
      obtain ⟨hpos, hle⟩ := checkWidth_eq_ok_iff.mp hwidth
      obtain ⟨items, hitems, hchunks⟩ :=
        carried?_eq hpos hle (roundSamples_lt 0 zs ns hrounded) (by decide : 0 < 2 ^ 100)
      have hroom : Digits.width + width ≤ 64 := Nat.add_le_add (by decide) hle
      have hsmall : ∀ d ∈ items, d.toNat < 2 ^ width := by
        intro d hd
        exact carried_lt width ns 0 _ (hchunks ▸ List.mem_map_of_mem hd)
      obtain ⟨accs, haccs, hmap⟩ := regroup?_spec (by decide) hroom (by decide) hsmall
      rw [hchunks] at hmap
      have hdigits : ofDigits (accs.map (·.toUInt32)) =
          ⟨false, (regroup width Digits.width (carried width ns 0) 0 0).map UInt32.ofNat⟩ := by
        rw [← hmap, ofDigits, List.map_map, List.map_map]
        exact congrArg _ (List.map_congr_left fun acc _ => toUInt32_and_mask acc)
      change Outcome.ofChecked _ >>= (fun items => Outcome.ofChecked
        (regroup? width Digits.width items 0 0) >>= fun accs => _) = Outcome.value _
      simp only [hitems, haccs, Outcome.ofChecked, Outcome.value_bind, hdigits]
      rfl

/-! ## There and back -/

/-- A chunk is converted to a double without loss. -/
theorem holds_ofChunk {c : Nat} (hle : width ≤ 30) (hc : c < 2 ^ width) :
    Holds (ofChunk (UInt32.ofNat c)).re c := by
  have hnarrow : 2 ^ width ≤ 2 ^ 30 := Nat.pow_le_pow_right (by decide) hle
  have hholds := holds_toFloat (UInt32.ofNat c)
  rwa [UInt32.toNat_ofNat_of_lt' (hc.trans_le (hnarrow.trans (by decide)))] at hholds

/-- The groups of bits of a number are samples. -/
theorem isSample_groups (hle : width ≤ 30) (len bits : Nat) :
    List.Forall₂ IsSample ((groups width len bits).map fun c => ofChunk (UInt32.ofNat c))
      (groups width len bits) := by
  rw [List.forall₂_map_left_iff, List.forall₂_same]
  intro c hc
  have hlt := groups_lt len bits c hc
  have hnarrow : 2 ^ width ≤ 2 ^ 100 := Nat.pow_le_pow_right (by decide) (by omega)
  exact ⟨.inl (holds_ofChunk hle hlt), hlt.trans_le hnarrow⟩

/-- A magnitude is written to samples chunk by chunk, whatever power of two
has the room, and read back from them.  Samples that are integers below
`2^100` are summed exactly, each in its place.  On the way no bit is lost, no
sum is too wide for its word, and no sample is missing. -/
theorem samples_exact {x : Integer} {i : Int} (hx : x.Denotes i) (hpos : 1 ≤ width)
    (hle : width ≤ 30) :
    (∀ m, chunkCount x width ≤ 2 ^ m → ∃ zs y,
      ofInteger x width (2 ^ m) = .ok zs ∧ ofInteger? x width (2 ^ m) = .value zs ∧
      zs.length = 2 ^ m ∧
      (∀ k < 2 ^ m, ∃ z, zs[k]? = some z ∧ z.im = 0 ∧
        Holds z.re (i.natAbs / 2 ^ (k * width) % 2 ^ width : ℕ)) ∧
      toInteger zs width = .ok y ∧ toInteger? zs width = .value y ∧ y.Denotes i.natAbs) ∧
    ∀ (zs : Sequence) (ns : List Nat), List.Forall₂ IsSample zs ns → ∃ y,
      toInteger zs width = .ok y ∧ toInteger? zs width = .value y ∧
        y.Denotes ((ns.mapIdx fun k n => n * 2 ^ (k * width)).sum : ℕ) := by
  have hwidth : checkWidth width = .ok () := checkWidth_eq_ok_iff.mpr ⟨hpos, hle⟩
  constructor
  · intro m hroom
    have hsamples := ofInteger_eq hx hwidth (checkLength_two_pow hroom)
    obtain ⟨y, hy, hvalue⟩ := toInteger_eq (isSample_groups hle (2 ^ m) i.natAbs) hwidth
    refine ⟨_, y, hsamples, ?_, ?_, ?_, hy, ?_, ?_⟩
    · rw [ofInteger?_eq hx, hsamples]
      rfl
    · rw [List.length_map, length_groups]
    · intro k hk
      refine ⟨_, ?_, rfl, holds_ofChunk hle (Nat.mod_lt _ (Nat.two_pow_pos width))⟩
      rw [groups_eq_map, List.map_map, List.getElem?_map, List.getElem?_range hk]
      rfl
    · rw [toInteger?_eq, hy]
      rfl
    · rw [ofDigits_groups, Nat.mul_comm,
        Nat.mod_eq_of_lt (natAbs_lt_of_chunkCount_le hx hpos hroom)] at hvalue
      exact hvalue
  · intro zs ns hzs
    obtain ⟨y, hy, hvalue⟩ := toInteger_eq hzs hwidth
    refine ⟨y, hy, ?_, ?_⟩
    · rw [toInteger?_eq, hy]
      rfl
    · have hplaces (k : Nat) : 2 ^ (k * width) = (2 ^ width) ^ k := by
        rw [Nat.mul_comm, pow_mul]
      simp only [hplaces]
      rwa [Nat.ofDigits_eq_sum_mapIdx] at hvalue

/-- Forty ones in four samples of ten bits, and a sample of eleven bits that
is carried. -/
theorem samples_exact_ten_bits :
    Denotes ⟨false, [0x3FFFFFFF, 0x3FF]⟩ (2 ^ 40 - 1) ∧
    chunkCount ⟨false, [0x3FFFFFFF, 0x3FF]⟩ 10 ≤ 2 ^ 2 ∧
    (∃ zs y, ofInteger? ⟨false, [0x3FFFFFFF, 0x3FF]⟩ 10 4 = .value zs ∧
      (∃ z, zs[3]? = some z ∧ Holds z.re 1023) ∧
      toInteger? zs 10 = .value y ∧ y.Denotes (2 ^ 40 - 1)) ∧
    List.Forall₂ IsSample [ofChunk 1023, ofChunk 1024] [1023, 1024] ∧
    ∃ y, toInteger? [ofChunk 1023, ofChunk 1024] 10 = .value y ∧ y.Denotes (2 ^ 20 + 1023) := by
  have hx : Denotes ⟨false, [0x3FFFFFFF, 0x3FF]⟩ (2 ^ 40 - 1) :=
    ⟨by simp [Canonical, Digits.base, Digits.isZero], by decide⟩
  have hcount : chunkCount ⟨false, [0x3FFFFFFF, 0x3FF]⟩ 10 ≤ 2 ^ 2 := by decide
  have hsamples : List.Forall₂ IsSample [ofChunk 1023, ofChunk 1024] [1023, 1024] :=
    .cons ⟨.inl (holds_toFloat 1023), by decide⟩
      (.cons ⟨.inl (holds_toFloat 1024), by decide⟩ .nil)
  obtain ⟨hthere, hback⟩ := samples_exact hx (by decide : 1 ≤ 10) (by decide)
  obtain ⟨zs, y, -, hzs, -, hsample, -, hy, hvalue⟩ := hthere 2 hcount
  obtain ⟨z, hz, -, hholds⟩ := hsample 3 (by decide)
  obtain ⟨y', -, hy', hvalue'⟩ := hback _ _ hsamples
  exact ⟨hx, hcount, ⟨zs, y, hzs, ⟨z, hz, hholds⟩, hy, hvalue⟩, hsamples, y', hy', hvalue'⟩

end Multiprecision.Complex
