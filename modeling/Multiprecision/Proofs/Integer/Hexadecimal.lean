import Mathlib
import Multiprecision.Proofs.Digits.Regroup
import Multiprecision.Proofs.Integer.Numerals

/-!
# Multiprecision.Proofs.Integer.Hexadecimal

Hexadecimal numerals in both directions:

* `Denotes.nibbles_eq` — the groups of four bits are the digits to the base of
  sixteen, once those above the bit length are cut off;
* `Denotes.hexFigures_eq` — so the figures that are written are canonical;
* `byteChars_eq_self` — a text whose bytes are all figures is read character by
  character;
* `ofHex_reads` — exactly the hexadecimal numerals are read, with their value.
-/

namespace Multiprecision.Integer

open Text Digits

variable {x : Integer} {i : Int} {b n : Nat} {cs : List Char} {s : String}

/-! ## Writing -/

/-- A number has as many digits as its bits fill. -/
theorem length_digits_sixteen (n : Nat) : (Nat.digits 16 n).length = (n.size + 3) / 4 := by
  refine eq_of_forall_ge_iff fun k => ?_
  have hpow : 16 ^ k = 2 ^ (4 * k) := (pow_mul 2 4 k).symm
  rw [Nat.digits_length_le_iff (by decide), hpow, ← Nat.size_le]
  omega

/-- Digits to a base, once the zeros at the high end are cut off. -/
theorem take_length_digits (hb : 1 < b) {ds : List Nat} (hds : ∀ d ∈ ds, d < b) :
    ds.take (Nat.digits b (Nat.ofDigits b ds)).length = Nat.digits b (Nat.ofDigits b ds) := by
  have hle : (Nat.digits b (Nat.ofDigits b ds)).length ≤ ds.length := by
    rw [Nat.digits_length_le_iff hb]
    exact Nat.ofDigits_lt_base_pow_length hb hds
  refine Nat.ofDigits_inj_of_len_eq hb ?_ (fun d hd => hds d (List.mem_of_mem_take hd))
    (fun d hd => Nat.digits_lt_base hb hd) ?_
  · rw [List.length_take, Nat.min_eq_left hle]
  · rw [← Nat.ofDigits_mod_pow_eq_ofDigits_take _ (by omega) ds hds, Nat.ofDigits_digits]
    exact Nat.mod_eq_of_lt (Nat.lt_base_pow_length_digits hb)

/-- The groups of four bits, without the zeros on top, are the hexadecimal
digits. -/
theorem Denotes.nibbles_eq (h : x.Denotes i) :
    (regroup width 4 (x.significant.map (·.toNat)) 0 0).take ((x.bitLength + 3) / 4) =
      Nat.digits 16 i.natAbs := by
  obtain ⟨hrange, hvalue⟩ := h.significant
  obtain ⟨hlt, hnibbles⟩ := regroup_spec (by decide : 0 < 4) hrange.lt
  rw [ofDigits_toNat, hvalue] at hnibbles
  have htake := take_length_digits (by decide : 1 < 2 ^ 4) hlt
  have hsixteen : 2 ^ 4 = 16 := by decide
  rwa [hnibbles, hsixteen, length_digits_sixteen, ← h.bitLength] at htake

/-- The figures in capitals, and in small letters. -/
theorem hexFigure_eq : ∀ d : Fin 16,
    hexFigure true d = upperFigure d ∧ hexFigure false d = (upperFigure d).toLower := by
  decide

/-- The figures that are written are the canonical ones, in either case. -/
theorem Denotes.hexFigures_eq (h : x.Denotes i) :
    x.hexFigures true = canonicalFigures 16 i.natAbs ∧
      x.hexFigures false = (canonicalFigures 16 i.natAbs).map Char.toLower := by
  have hlt (d : Nat) (hd : d ∈ Nat.digits 16 i.natAbs) : d < 16 :=
    Nat.digits_lt_base (by decide) hd
  have hupper : (Nat.digits 16 i.natAbs).map (hexFigure true) =
      (Nat.digits 16 i.natAbs).map upperFigure :=
    List.map_congr_left fun d hd => (hexFigure_eq ⟨d, hlt d hd⟩).1
  have hlower : (Nat.digits 16 i.natAbs).map (hexFigure false) =
      ((Nat.digits 16 i.natAbs).map upperFigure).map Char.toLower := by
    rw [List.map_map]
    exact List.map_congr_left fun d hd => (hexFigure_eq ⟨d, hlt d hd⟩).2
  have hzero : x.isZero = true ↔ i.natAbs = 0 := by rw [h.isZero_iff, Int.natAbs_eq_zero]
  simp only [hexFigures, h.nibbles_eq, hupper, hlower, canonicalFigures, hzero]
  split <;> simp

/-- The numeral that is written is the canonical one, and no other is. -/
theorem Denotes.isCanonical_sixteen_iff (h : x.Denotes i) {t : String} :
    IsCanonical 16 t.toList i ↔ t = x.toHex := by
  rw [isCanonical_iff (by decide) (by decide), ← h.hexFigures_eq.1, ← h.sign_eq_ite, toHex,
    ← String.toList_inj, String.toList_ofList]

/-- The text is that of the value, whatever is in storage. -/
theorem Denotes.toHex_eq {y : Integer} (hx : x.Denotes i) (hy : y.Denotes i) :
    x.toHex = y.toHex :=
  hy.isCanonical_sixteen_iff.mp (hx.isCanonical_sixteen_iff.mpr rfl)

/-- The figures that are written are figures of the magnitude. -/
theorem Denotes.figures_hexFigures (h : x.Denotes i) (upper : Bool) :
    Figures 16 (x.hexFigures upper) i.natAbs := by
  obtain ⟨hfigures, hupper, -⟩ :=
    canonicalFigures_spec (by decide : 1 < 16) (by decide) i.natAbs
  cases upper with
  | true => exact h.hexFigures_eq.1 ▸ hfigures
  | false => exact h.hexFigures_eq.2 ▸ hfigures.map_toLower hupper

/-! ## The bytes of a text -/

/-- The bytes of a text, each as a character. -/
theorem byteChars_eq (cs : List Char) : byteChars cs =
    cs.flatMap fun c => (String.utf8EncodeChar c).map fun b => Char.ofNat b.toNat := by
  rw [byteChars, String.toUTF8_eq_toByteArray, String.toByteArray_ofList, List.utf8Encode,
    List.toList_data_toByteArray, List.map_flatMap]

/-- A character below 128 is one byte. -/
theorem utf8EncodeChar_of_le {c : Char} (h : c.toNat ≤ 127) :
    (String.utf8EncodeChar c).map (fun b => Char.ofNat b.toNat) = [c] := by
  have hbyte : (UInt8.ofNat c.toNat).toNat = c.toNat := by
    rw [UInt8.toNat_ofNat']
    exact Nat.mod_eq_of_lt (h.trans_lt (by decide))
  have hencode : String.utf8EncodeChar c = [UInt8.ofNat c.toNat] := if_pos h
  rw [hencode, List.map_singleton, hbyte, Char.ofNat_toNat]

/-- The last byte of any other character is 128 or more. -/
theorem exists_utf8EncodeChar {c : Char} (h : 127 < c.toNat) :
    ∃ b ∈ String.utf8EncodeChar c, 128 ≤ b.toNat := by
  refine ⟨UInt8.ofNat (c.val.toNat % 64 + 128), ?_, ?_⟩
  · have hnot : ¬ c.val.toNat ≤ 127 := not_le.mpr h
    simp only [String.utf8EncodeChar, if_neg hnot]
    split_ifs <;> simp
  · rw [UInt8.toNat_ofNat']
    omega

/-- A text of single bytes is its own bytes. -/
theorem byteChars_eq_self (h : ∀ c ∈ cs, c.toNat ≤ 127) : byteChars cs = cs := by
  rw [byteChars_eq]
  induction cs with
  | nil => rfl
  | cons c cs ih =>
    rw [List.flatMap_cons, utf8EncodeChar_of_le (h c (by simp)),
      ih fun d hd => h d (by simp [hd]), List.singleton_append]

/-- Hexadecimal figures are single bytes. -/
theorem toNat_le_of_hexValue? {c : Char} {d : Nat} (h : hexValue? c = some d) : c.toNat ≤ 127 :=
  Nat.le_of_lt_succ (isFigure_sixteen_iff.mpr h).ascii.2

/-- If every byte of a text is a figure, then so is every character. -/
theorem byteChars_of_figures (h : ∀ c ∈ byteChars cs, ∃ d, hexValue? c = some d) :
    byteChars cs = cs := by
  refine byteChars_eq_self fun c hc => ?_
  by_contra hlarge
  obtain ⟨b, hb, hbyte⟩ := exists_utf8EncodeChar (not_le.mp hlarge)
  have hmem : Char.ofNat b.toNat ∈ byteChars cs := by
    rw [byteChars_eq]
    exact List.mem_flatMap.mpr ⟨c, hc, List.mem_map_of_mem hb⟩
  obtain ⟨d, hd⟩ := h _ hmem
  have hle := toNat_le_of_hexValue? hd
  have hvalid : b.toNat.isValidChar := .inl (b.toNat_lt.trans (by decide))
  rw [Char.toNat_ofNat, if_pos hvalid] at hle
  omega

/-! ## Reading -/

/-- The values of figures, as they are read. -/
def hexValues (cs : List Char) : List Nat := cs.map fun c => (hexValue? c).getD 0

/-- The figures of a numeral, without its sign and its mark, as they are read. -/
def readHexBody (cs : List Char) : Integer :=
  { negative := false
    digits := (regroup 4 width (hexValues cs.reverse) 0 0).map UInt32.ofNat }

/-- Hexadecimal figures write a number if there are any and all of them are
figures. -/
theorem exists_figures_sixteen_iff :
    (∃ n, Figures 16 cs n) ↔ cs ≠ [] ∧ ∀ c ∈ cs, ∃ d, hexValue? c = some d := by
  simp only [exists_figures_iff, isFigure_sixteen_iff]

/-- Every figure is read as its value, which has four bits. -/
theorem hexValues_eq {ds : List Nat} (h : List.Forall₂ (Text.IsFigure 16) cs ds) :
    hexValues cs = ds ∧ ∀ d ∈ ds, d < 2 ^ 4 := by
  induction h with
  | nil => simp [hexValues]
  | @cons c d cs ds hd _ ih =>
    obtain ⟨hvalues, hlt⟩ := ih
    constructor
    · rw [hexValues, List.map_cons, isFigure_sixteen_iff.mp hd, Option.getD_some, ← hvalues,
        hexValues]
    · exact List.forall_mem_cons.mpr ⟨hd.1, hlt⟩

/-- Figures are read to the number that they write. -/
theorem denotes_readHexBody (h : Figures 16 cs n) : (readHexBody cs).Denotes n := by
  obtain ⟨-, ds, hds, rfl⟩ := figures_iff.mp h
  obtain ⟨hvalues, hlt⟩ := hexValues_eq (List.rel_reverse hds)
  obtain ⟨hrange, hvalue⟩ := regroup_digits hlt
  rw [readHexBody, hvalues]
  exact denotes_nonneg hrange hvalue

/-- Figures have no mark, and a mark is taken off. -/
theorem figures_or_marked_iff :
    Figures 16 cs n ∨ Marked cs n ↔ Figures 16 (dropHexMark cs) n := by
  constructor
  · rintro (h | h)
    · have hdrop : dropHexMark cs = cs := by
        unfold dropHexMark
        split
        · exact absurd (by simp) (h.not_mem (c := 'x') (by decide) (by decide))
        · exact absurd (by simp) (h.not_mem (c := 'X') (by decide) (by decide))
        · rfl
      rwa [hdrop]
    · cases h with
      | lower h => exact h
      | upper h => exact h
  · unfold dropHexMark
    split
    · exact fun h => .inr (.lower h)
    · exact fun h => .inr (.upper h)
    · exact .inl

/-- A mark and a figure are no minus sign. -/
theorem head?_ne_minus_of_hex (h : Figures 16 cs n ∨ Marked cs n) : cs.head? ≠ some '-' := by
  rcases h with h | h
  · exact h.head?_ne_minus
  · cases h <;> simp

/-- A text is read if figures follow the sign and the mark and nothing else. -/
theorem ofHex_of_figures (h : ∃ n, Figures 16 (dropHexMark (splitSign s.toList).2) n) :
    ofHex s = .ok { readHexBody (dropHexMark (splitSign s.toList).2) with
      negative := (splitSign s.toList).1 }.normalizeSign := by
  obtain ⟨hne, hall⟩ := exists_figures_sixteen_iff.mp h
  have hs : s.isEmpty = false := by
    by_contra hempty
    simp at hempty
    simp [hempty, splitSign, dropHexMark] at hne
  have hbytes : byteChars (dropHexMark (splitSign s.toList).2) =
      dropHexMark (splitSign s.toList).2 :=
    byteChars_eq_self fun c hc =>
      let ⟨_, hd⟩ := hall c hc
      toNat_le_of_hexValue? hd
  have hfind : (dropHexMark (splitSign s.toList).2).reverse.find? (hexValue? · |>.isNone) =
      none := by
    rw [List.find?_eq_none]
    intro c hc
    obtain ⟨d, hd⟩ := hall c (List.mem_reverse.mp hc)
    simp [hd]
  simp [ofHex, hs, hbytes, hne, hfind, readHexBody, hexValues]

/-- Every other text is an error of the text. -/
theorem ofHex_of_not_figures (h : ¬ ∃ n, Figures 16 (dropHexMark (splitSign s.toList).2) n) :
    ∃ reason, ofHex s = .error (.parse reason) := by
  simp only [ofHex]
  split
  · exact ⟨_, rfl⟩
  · split
    · exact ⟨_, rfl⟩
    · next hne =>
      split
      · exact ⟨_, rfl⟩
      · next hne _ hfind =>
        -- Every byte is a figure, so the text is its bytes and reads as a numeral.
        rw [List.find?_eq_none] at hfind
        have hall : ∀ c ∈ byteChars (dropHexMark (splitSign s.toList).2),
            ∃ d, hexValue? c = some d := fun c hc => by
          have hsome := hfind c (List.mem_reverse.mpr hc)
          rwa [Option.isNone_iff_eq_none, ← ne_eq, Option.ne_none_iff_exists'] at hsome
        rw [byteChars_of_figures hall] at hne hall
        exact absurd (exists_figures_sixteen_iff.mpr ⟨by simpa using hne, hall⟩) h

/-- Exactly the hexadecimal numerals are read, each with its value. -/
theorem ofHex_reads (s : String) : Reads (ofHex s) (IsHexadecimal s.toList) := by
  refine reads_signed (fun cs => readHexBody (dropHexMark cs))
    (fun _ _ => head?_ne_minus_of_hex) ?_ ?_ ?_
  · exact fun _ _ h => denotes_readHexBody (figures_or_marked_iff.mp h)
  · intro h
    simp only [figures_or_marked_iff] at h
    exact ofHex_of_figures h
  · intro h
    simp only [figures_or_marked_iff] at h
    exact ofHex_of_not_figures h

end Multiprecision.Integer
