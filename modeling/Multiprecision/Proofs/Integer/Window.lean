import Mathlib
import Multiprecision.Integer.Window.Checked
import Multiprecision.Proofs.Digits.Checked
import Multiprecision.Proofs.Fermat.Product
import Multiprecision.Proofs.Integer.Bits
import Multiprecision.Proofs.Integer.Checked
import Multiprecision.Proofs.Product.ToomCook
import Multiprecision.Proofs.Size

/-!
# Multiprecision.Proofs.Integer.Window

Windows of a magnitude:

* `Denotes.bitWindow?_eq`, `Denotes.digitWindow?_eq` — taken digit by digit they
  read stored places only, and are those of `Multiprecision.Integer.Window`;
* `window_append`, `ofDigits_windows` — next to each other they make up a number;
* `windows_exact` — both, and what a window is in numbers.
-/

namespace Multiprecision

namespace Digits

/-- A shift to the left by less than the bits of a word is carried out. -/
theorem shiftUpWord?_eq (d : Digit) {bits : Nat} (h : bits < 32) :
    shiftUpWord? d bits = some (d <<< UInt32.ofNat bits) := if_pos h

theorem shiftDownWord?_eq (d : Digit) {bits : Nat} (h : bits < 32) :
    shiftDownWord? d bits = some (d >>> UInt32.ofNat bits) := if_pos h

/-- The bits of two words below the mask. -/
theorem or_and_mask {d : Digit} (hd : d.toNat < base) (e : Digit) :
    (d ||| e) &&& mask = d ||| (e &&& mask) := by
  have hlow : d.toNat % base = d.toNat := Nat.mod_eq_of_lt hd
  rw [← UInt32.toNat_inj, toNat_and_mask, UInt32.toNat_or, UInt32.toNat_or, toNat_and_mask,
    base_eq, Nat.or_mod_two_pow, ← base_eq, hlow]

/-- A place of digits that have moved down. -/
theorem getElem?_shiftDown (b : UInt32) {ds : List Digit} {k : Nat} (hk : k < ds.length) :
    (shiftDown b ds)[k]? = some ((ds.drop k).headD 0 >>> b |||
      if b = 0 then 0 else ((ds.drop (k + 1)).headD 0 <<< (30 - b)) &&& mask) := by
  induction ds generalizing k with
  | nil => exact absurd hk (Nat.not_lt_zero k)
  | cons d ds ih =>
    rw [shiftDown_cons]
    cases k with
    | zero => rfl
    | succ k => exact ih (Nat.lt_of_succ_lt_succ hk)

/-- The low bits of a number: as many digits as they need, and the highest of them
cut off. -/
theorem lowBits_eq {n : Nat} (hn : 0 < n) {ds : List Digit} (hlen : countFor n ≤ ds.length) :
    lowBits n ds =
      if n - (countFor n - 1) * width < width then
        (ds.take (countFor n)).modify (countFor n - 1)
          (· &&& ((1 <<< UInt32.ofNat (n - (countFor n - 1) * width)) - 1))
      else ds.take (countFor n) := by
  induction ds generalizing n with
  | nil => exact absurd hlen (not_le.mpr (countFor_pos hn))
  | cons d ds ih =>
    rw [lowBits, if_neg hn.ne']
    rcases Nat.lt_trichotomy n width with hlt | rfl | hgt
    · rw [if_pos hlt, countFor_of_le hn hlt.le]
      simp [hlt]
    · rw [if_neg (lt_irrefl _), countFor_of_le hn le_rfl]
      cases ds <;> simp [lowBits]
    · obtain ⟨rest, rfl⟩ : ∃ rest, n = rest + width := ⟨n - width, by omega⟩
      have hrest : 0 < rest := by omega
      obtain ⟨last, hlast⟩ : ∃ last, countFor rest = last + 1 :=
        ⟨_, (Nat.succ_pred_eq_of_pos (countFor_pos hrest)).symm⟩
      have htop : rest + width - (last + 1) * width = rest - last * width := by
        rw [Nat.succ_mul, Nat.add_sub_add_right]
      have hcount : countFor (rest + width) = countFor rest + 1 := by
        rw [countFor_cons (Nat.le_add_left _ _), Nat.add_sub_cancel]
      rw [List.length_cons, hcount] at hlen
      have hlow := ih hrest (by omega)
      rw [hlast, Nat.add_sub_cancel] at hlow
      rw [if_neg hgt.not_gt, Nat.add_sub_cancel, hlow, hcount, hlast,
        Nat.add_sub_cancel, htop, List.take_succ_cons]
      split
      · rw [List.modify_succ_cons]
      · rfl

/-- Cutting the top digit of `n` bits leaves the lowest `n` bits. -/
theorem cutTop?_eq {n : Nat} (hn : 0 < n) {ds : List Digit} (hlen : countFor n ≤ ds.length)
    (hfits : n < 2 ^ 64) : cutTop? n (ds.take (countFor n)) = some (lowBits n ds) := by
  have hwidth : width = 30 := rfl
  have hpos := countFor_pos hn
  have hbelow := (pred_countFor_mul_lt hn).le
  have hbits : Integer.digitBits? (countFor n - 1) = some ((countFor n - 1) * width) :=
    if_pos (hbelow.trans_lt hfits)
  have hlast : countFor n - 1 < (ds.take (countFor n)).length := by
    rw [List.length_take]
    omega
  simp only [cutTop?, Size.sub?_eq hpos, Size.sub?_eq hbelow, hbits, Option.bind_eq_bind,
    Option.bind_some, lowBits_eq hn hlen]
  split
  · next htop =>
    have hone := subtractWord?_eq (UInt32.le_iff_toNat_le.mp (one_le_one_shiftLeft htop))
    rw [List.getElem?_eq_getElem hlast, shiftUpWord?_eq 1 (by omega)]
    simp only [Option.bind_some, hone, put?, if_pos hlast]
    rw [List.modify_eq_set_getElem?, List.getElem?_eq_getElem hlast]
    rfl
  · rfl

/-- Places read in turn, none of them past the end, are the first digits. -/
theorem mapM_range_eq_take {f : Nat → Option Digit} {ds : List Digit} {n : Nat}
    (hf : ∀ k < n, f k = ds[k]?) (hlen : n ≤ ds.length) :
    (List.range n).mapM f = some (ds.take n) := by
  induction n with
  | zero => rfl
  | succ n ih =>
    have hlast : f n = some ds[n] := by rw [hf n (Nat.lt_succ_self n), List.getElem?_eq_getElem]
    rw [List.range_succ, List.mapM_append, ih (fun k hk => hf k (by omega)) (by omega)]
    simp [hlast]

end Digits

namespace Integer

open Digits

variable {x : Integer} {i : Int}

/-- The digit in a place, as one of the significant digits or zero. -/
theorem digit_eq_significant (x : Integer) (place : Nat) :
    x.digit place = (x.significant.drop place).headD 0 := by
  rw [Integer.digit, x.digits_eq, List.drop_append]
  cases x.significant.drop place with
  | nil =>
    rw [List.nil_append, List.drop_replicate]
    cases x.capacity - x.digitCount - (place - x.significant.length) with
    | zero => rfl
    | succ n => rfl
  | cons d ds => rfl

/-- The bits that the next digit lends are shifted up, and none if the window
begins with a digit. -/
theorem lent?_eq (x : Integer) {place shift : Nat} (hplace : place + 1 < 2 ^ 64)
    (hshift : shift < width) :
    x.lent? place shift =
      some (if UInt32.ofNat shift = 0 then 0
        else x.digit (place + 1) <<< (30 - UInt32.ofNat shift)) := by
  have hwidth : width = 30 := rfl
  have hword := toNat_ofNat_of_le_width hshift.le
  have hzero : UInt32.ofNat shift = 0 ↔ shift = 0 := by
    rw [← UInt32.toNat_inj, hword, UInt32.toNat_zero]
  rw [lent?]
  by_cases h : shift = 0
  · rw [if_pos h, if_pos (hzero.mpr h)]
  · have hsub : UInt32.ofNat (width - shift) = 30 - UInt32.ofNat shift := by
      rw [← UInt32.toNat_inj, toNat_width_sub (hword.trans_le hshift.le), hword,
        toNat_ofNat_of_le_width (Nat.sub_le _ _)]
    rw [if_neg h, if_neg (mt hzero.mp h), Size.add?_eq hplace, Size.sub?_eq hshift.le]
    exact (shiftUpWord?_eq _ (by omega)).trans (by rw [hsub])

/-- A digit of a window is that of the digits moved down. -/
theorem windowDigit?_eq (hx : InRange x.digits) {first shift k : Nat}
    (hk : first + k < x.digitCount) (hfits : x.digitCount < 2 ^ 64) (hshift : shift < width) :
    x.windowDigit? first shift k =
      (shiftDown (UInt32.ofNat shift) (x.significant.drop first))[k]? := by
  have hwidth : width = 30 := rfl
  have hword := toNat_ofNat_of_le_width hshift.le
  have hlow : (x.digit (first + k) >>> UInt32.ofNat shift).toNat < base := by
    rw [toNat_shiftRight_lt _ (by omega)]
    exact (Nat.div_le_self _ _).trans_lt (headD_drop_lt hx _)
  have hlen : k < (x.significant.drop first).length := by
    rw [List.length_drop, length_significant]
    omega
  rw [windowDigit?, Size.add?_eq (by omega), getElem?_shiftDown _ hlen, List.drop_drop,
    List.drop_drop, ← digit_eq_significant, ← Nat.add_assoc, ← digit_eq_significant]
  simp only [Option.bind_eq_bind, Option.bind_some, shiftDownWord?_eq _ (show shift < 32 by omega),
    lent?_eq x (show first + k + 1 < 2 ^ 64 by omega) hshift, or_and_mask hlow]
  split <;> rfl

/-- Digits in range make the integer with them. -/
theorem ofDigits_eq {ds : List Digit} (hds : InRange ds) : ofDigits ds = ⟨false, ds⟩ := by
  rw [ofDigits]
  congr 1
  conv_rhs => rw [← List.map_id ds]
  refine List.map_congr_left fun d hd => ?_
  rw [← UInt32.toNat_inj, toNat_and_mask, Nat.mod_eq_of_lt (hds d hd), id]

/-- The bits of some digits are counted exactly if they fit a word. -/
theorem digitBits?_eq_ite (n : Nat) :
    digitBits? n = if 30 * n < 2 ^ 64 then some (n * width) else none := by
  rw [digitBits?, Nat.mul_comm 30 n]
  rfl

/-- The digits from the one of bit `lo` on, as many as hold the bits up to `last`. -/
theorem div_add_countFor_le {lo last n : Nat} (hlo : lo ≤ last) (hlast : last < n * width) :
    lo / width + countFor (last - lo + 1) ≤ n := by
  have hwidth : width = 30 := rfl
  rw [hwidth] at hlast
  rw [countFor, hwidth]
  omega

/-- The digits of a window, before the highest one is cut off. -/
theorem mapM_windowDigit?_eq (hx : InRange x.digits) {lo n : Nat}
    (hn : lo / width + n ≤ x.digitCount) (hfits : x.digitCount < 2 ^ 64) :
    (List.range n).mapM (x.windowDigit? (lo / width) (lo % width)) =
      some ((shiftDown (UInt32.ofNat (lo % width)) (x.significant.drop (lo / width))).take n) := by
  refine mapM_range_eq_take (fun k hk => windowDigit?_eq hx (by omega) hfits
    (Nat.mod_lt lo (by decide))) ?_
  rw [length_shiftDown, List.length_drop, length_significant]
  omega

/-- Where the bits of an integer can be counted, its windows of bits are made of
stored places only, and no shift is too wide. -/
theorem Denotes.bitWindow?_eq (h : x.Denotes i) (lo hi : Nat) :
    x.bitWindow? lo hi =
      if 30 * x.digitCount < 2 ^ 64 then some (x.bitWindow lo hi) else none := by
  have hwidth : width = 30 := rfl
  rw [bitWindow?, digitBits?_eq_ite]
  split
  · next hfits =>
    rw [Integer.bitWindow, length_significant]
    simp only [Option.bind_eq_bind, Option.bind_some, Bool.or_eq_true, decide_eq_true_eq]
    split
    · rfl
    · next hsome =>
      rw [not_or, not_lt, not_le] at hsome
      obtain ⟨last, hlast⟩ : ∃ last, last = min hi (x.digitCount * width - 1) := ⟨_, rfl⟩
      rw [← hlast]
      have hlo : lo ≤ last := by omega
      have hstored : last < x.digitCount * width := by omega
      have hplaces := div_add_countFor_le hlo hstored
      have hlong : last - lo + 1 < 2 ^ 64 := by
        rw [hwidth] at hstored
        omega
      have hlen : countFor (last - lo + 1) ≤
          (shiftDown (UInt32.ofNat (lo % width)) (x.significant.drop (lo / width))).length := by
        rw [length_shiftDown, List.length_drop, length_significant]
        omega
      have hrange := inRange_lowBits (last - lo + 1)
        (inRange_shiftDown (toNat_mod_width_lt lo) (h.significant.1.drop (lo / width)))
      rw [Size.sub?_eq (by omega), Option.bind_some, ← hlast, Size.sub?_eq hlo, Option.bind_some,
        Size.add?_eq hlong, Option.bind_some, mapM_windowDigit?_eq h.inRange hplaces (by omega),
        Option.bind_some, cutTop?_eq (Nat.succ_pos _) hlen hlong, Option.bind_some,
        ofDigits_eq hrange, Nat.sub_add_comm hlo]
      rfl
  · rfl

/-- The checked window of digits returns, and is the window. -/
theorem Denotes.digitWindow?_eq (h : x.Denotes i) (lo hi : Nat) :
    x.digitWindow? lo hi = some (x.digitWindow lo hi) := by
  rw [digitWindow?, Integer.digitWindow, length_significant]
  simp only [Bool.or_eq_true, decide_eq_true_eq]
  split
  · rfl
  · next hsome =>
    rw [not_or, not_lt, not_le] at hsome
    have hle := x.digitCount_le_capacity
    have hstored : x.digits.length = x.capacity := rfl
    have hslice : slice? x.digits lo (min hi (x.digitCount - 1)) =
        some ((x.significant.drop lo).take (hi + 1 - lo)) := by
      rw [slice?, if_pos (by omega), x.digits_eq, List.drop_append_of_le_length
        (by rw [length_significant]; omega), List.take_append_of_le_length
        (by rw [List.length_drop, length_significant]; omega)]
      rcases Nat.le_total hi (x.digitCount - 1) with hin | hout
      · rw [min_eq_left hin]
      · rw [min_eq_right hout, List.take_of_length_le, List.take_of_length_le] <;>
          rw [List.length_drop, length_significant] <;> omega
    rw [Size.sub?_eq (by omega)]
    simp only [Option.bind_eq_bind, Option.bind_some, hslice]
    rw [ofDigits_eq ((h.significant.1.drop lo).take _)]
    rfl

/-! ## Windows one after another -/

/-- The places `lo` to `hi` of a number are those to `mid` and those above. -/
theorem window_append (b m : Nat) {lo mid hi : Nat} (hlo : lo ≤ mid) (hhi : mid < hi) :
    m / b ^ lo % b ^ (mid + 1 - lo) +
        b ^ (mid + 1 - lo) * (m / b ^ (mid + 1) % b ^ (hi + 1 - (mid + 1))) =
      m / b ^ lo % b ^ (hi + 1 - lo) := by
  have hwidth : hi + 1 - lo = (mid + 1 - lo) + (hi + 1 - (mid + 1)) := by omega
  have hstart : mid + 1 = lo + (mid + 1 - lo) := by omega
  conv_lhs => rw [hstart, pow_add b lo, ← Nat.div_div_eq_div_mul, ← hstart]
  rw [hwidth, pow_add, Nat.mod_mul]

/-- A number from its lowest windows of one width. -/
theorem ofDigits_windows (b m n : Nat) :
    Nat.ofDigits b ((List.range n).map fun k => m / b ^ k % b) = m % b ^ n := by
  induction n with
  | zero => simp [Nat.mod_one]
  | succ n ih =>
    rw [List.range_succ, List.map_append, Nat.ofDigits_append, ih, List.length_map,
      List.length_range, List.map_singleton, Nat.ofDigits_singleton, Nat.mod_pow_succ]

theorem Denotes.magnitude_bitWindow (h : x.Denotes i) (lo hi : Nat) :
    (x.bitWindow lo hi).magnitude = i.natAbs / 2 ^ lo % 2 ^ (hi + 1 - lo) := by
  rw [(h.bitWindow lo hi).magnitude, Int.natAbs_natCast]

theorem Denotes.magnitude_digitWindow (h : x.Denotes i) (lo hi : Nat) :
    (x.digitWindow lo hi).magnitude = i.natAbs / base ^ lo % base ^ (hi + 1 - lo) := by
  rw [(h.digitWindow lo hi).magnitude, Int.natAbs_natCast]

/-- The parts of a transform, put side by side, are the lowest bits again. -/
theorem Denotes.ofDigits_split (h : x.Denotes i) (parts : Nat) {size : Nat} (hsize : 0 < size) :
    Nat.ofDigits (2 ^ size) ((Fermat.split parts size x).map Integer.magnitude) =
      i.natAbs % 2 ^ (parts * size) := by
  have hparts : (Fermat.split parts size x).map Integer.magnitude =
      (List.range parts).map fun j => i.natAbs / (2 ^ size) ^ j % 2 ^ size := by
    rw [Fermat.split, List.map_map]
    refine List.map_congr_left fun j _ => ?_
    have hwidth : (j + 1) * size - 1 + 1 - j * size = size := by
      rw [Nat.succ_mul]
      omega
    rw [Function.comp_apply, h.magnitude_bitWindow, hwidth, ← pow_mul, Nat.mul_comm size]
  rw [hparts, ofDigits_windows, ← pow_mul, Nat.mul_comm size]

/-- The chunks of a split, with the rest as the last one, are the number again. -/
theorem Denotes.ofDigits_chunks (h : x.Denotes i) {z : Nat} (hz : 0 < z) (n : Nat) :
    Nat.ofDigits (base ^ z) ((List.range n).map (fun k => (ToomCook.chunk x z k).magnitude) ++
      [(ToomCook.lastChunk x z n).magnitude]) = i.natAbs := by
  have hchunks : (List.range n).map (fun k => (ToomCook.chunk x z k).magnitude) =
      (List.range n).map fun k => i.natAbs / (base ^ z) ^ k % base ^ z := by
    refine List.map_congr_left fun k _ => ?_
    have hchunk := (ToomCook.denotes_chunk h hz.ne' k).magnitude
    rwa [Int.natAbs_natCast, Nat.mul_comm k, pow_mul] at hchunk
  have hlast := (ToomCook.denotes_lastChunk h z n).magnitude
  rw [Int.natAbs_natCast, Nat.mul_comm n, pow_mul] at hlast
  rw [hchunks, hlast, Nat.ofDigits_append, ofDigits_windows, List.length_map, List.length_range,
    Nat.ofDigits_singleton, Nat.mod_add_div]

/-- A window of digits that ends past the last of them takes all from its start. -/
theorem digitWindow_of_le (x : Integer) {hi : Nat} (hhi : x.digitCount ≤ hi) (lo : Nat) :
    x.digitWindow lo hi = if x.digitCount ≤ lo then zero else ⟨false, x.significant.drop lo⟩ := by
  rw [Integer.digitWindow, length_significant]
  simp only [Bool.or_eq_true, decide_eq_true_eq]
  rcases Nat.lt_or_ge lo x.digitCount with hlo | hlo
  · rw [if_neg (by omega), if_neg (by omega), List.take_of_length_le]
    rw [List.length_drop, length_significant]
    omega
  · rw [if_pos (Or.inr hlo), if_pos hlo]

/-- The last chunk is the window up to the largest place there is. -/
theorem lastChunk_eq (x : Integer) (hfits : x.digitCount < 2 ^ 64) (z k : Nat) :
    ToomCook.lastChunk x z k = x.digitWindow (k * z) (2 ^ 64 - 1) := by
  rw [ToomCook.lastChunk, digitWindow_of_le x le_rfl, digitWindow_of_le x (by omega)]

/-- The width of a window, which has none if it ends before it begins. -/
theorem window_eq_ite (b m lo hi : Nat) :
    m / b ^ lo % b ^ (hi + 1 - lo) = if lo ≤ hi then m / b ^ lo % b ^ (hi - lo + 1) else 0 := by
  split
  · next hle => rw [Nat.sub_add_comm hle]
  · next hlt => rw [Nat.sub_eq_zero_of_le (not_le.mp hlt), pow_zero, Nat.mod_one]

/-- A window is a quotient of a remainder, and not negative.  It is made of stored
places only, and no shift is too wide, wherever it ends; only the number of bits
has to fit a double word.  Windows one after another make up the magnitude: two
of them one wider window, the parts of an exponent the low bits, and the chunks of
an operand all of it. -/
theorem windows_exact (h : x.Denotes i) (lo hi : Nat) :
    x.bitWindow? lo hi =
      (if 30 * x.digitCount < 2 ^ 64 then some (x.bitWindow lo hi) else none) ∧
    (x.bitWindow lo hi).Denotes
      (if lo ≤ hi then i.natAbs / 2 ^ lo % 2 ^ (hi - lo + 1) else 0 : Nat) ∧
    x.digitWindow? lo hi = some (x.digitWindow lo hi) ∧
    (x.digitWindow lo hi).Denotes
      (if lo ≤ hi then i.natAbs / base ^ lo % base ^ (hi - lo + 1) else 0 : Nat) ∧
    (∀ mid, lo ≤ mid → mid < hi →
      (x.bitWindow lo mid).magnitude +
          2 ^ (mid + 1 - lo) * (x.bitWindow (mid + 1) hi).magnitude =
        (x.bitWindow lo hi).magnitude ∧
      (x.digitWindow lo mid).magnitude +
          base ^ (mid + 1 - lo) * (x.digitWindow (mid + 1) hi).magnitude =
        (x.digitWindow lo hi).magnitude) ∧
    (∀ parts size, 0 < size →
      Nat.ofDigits (2 ^ size) ((Fermat.split parts size x).map Integer.magnitude) =
        i.natAbs % 2 ^ (parts * size)) ∧
    (∀ n z, 0 < z →
      Nat.ofDigits (base ^ z) ((List.range n).map (fun k => (ToomCook.chunk x z k).magnitude) ++
        [(ToomCook.lastChunk x z n).magnitude]) = i.natAbs ∧
      (x.digitCount < 2 ^ 64 →
        ToomCook.lastChunk x z n = x.digitWindow (n * z) (2 ^ 64 - 1))) := by
  refine ⟨h.bitWindow?_eq lo hi, ?_, h.digitWindow?_eq lo hi, ?_, fun mid hlo hhi => ⟨?_, ?_⟩,
    fun parts size hsize => h.ofDigits_split parts hsize,
    fun n z hz => ⟨h.ofDigits_chunks hz n, fun hfits => lastChunk_eq x hfits z n⟩⟩
  · rw [← window_eq_ite]
    exact h.bitWindow lo hi
  · rw [← window_eq_ite]
    exact h.digitWindow lo hi
  · rw [h.magnitude_bitWindow, h.magnitude_bitWindow, h.magnitude_bitWindow]
    exact window_append 2 i.natAbs hlo hhi
  · rw [h.magnitude_digitWindow, h.magnitude_digitWindow, h.magnitude_digitWindow]
    exact window_append base i.natAbs hlo hhi

/-- All of a negative integer with a reserved place but its lowest 29 bits. -/
theorem windows_exact_across_places :
    Denotes ⟨true, [0x3FFFFFFF, 5, 0]⟩ (-(6 * 2 ^ 30 - 1)) ∧
    bitWindow? ⟨true, [0x3FFFFFFF, 5, 0]⟩ 29 (2 ^ 64 - 1) = some ⟨false, [11, 0]⟩ ∧
    digitWindow? ⟨true, [0x3FFFFFFF, 5, 0]⟩ 1 (2 ^ 64 - 1) = some ⟨false, [5]⟩ := by
  have hx : Denotes ⟨true, [0x3FFFFFFF, 5, 0]⟩ (-(6 * 2 ^ 30 - 1)) :=
    ⟨by simp [Canonical, base, Digits.isZero], by decide⟩
  have hbits := (windows_exact hx 29 (2 ^ 64 - 1)).1
  have hdigits := (windows_exact hx 1 (2 ^ 64 - 1)).2.2.1
  exact ⟨hx, hbits.trans (by decide +kernel), hdigits.trans (by decide +kernel)⟩

end Integer

end Multiprecision
