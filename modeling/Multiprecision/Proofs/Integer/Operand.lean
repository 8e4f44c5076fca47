import Mathlib
import Multiprecision.Integer.Operand
import Multiprecision.Proofs.Integer.Decimal
import Multiprecision.Proofs.Integer.Hexadecimal

/-!
# Multiprecision.Proofs.Integer.Operand

Operands with blanks around them, and numerals in a field of no width:

* `isOperand_iff` — whether a mark follows the sign decides between the two
  grammars, which have no text in common under a mark;
* `ofOperand_reads` — exactly the operands are read, with their value, whatever
  blanks are around them;
* `hexadecimal_round_trip` — what is written in either radix is read back.
-/

namespace Multiprecision.Integer

open Text

variable {x : Integer} {i : Int} {b n : Nat} {cs : List Char} {s : String}

/-! ## Marks -/

/-- Figures alone have no mark in front. -/
theorem hasHexMark_of_figures (h : Figures b cs n) : hasHexMark cs = false := by
  unfold hasHexMark
  split
  · exact absurd (by simp) (h.not_mem (c := 'x') (by decide) (by decide))
  · exact absurd (by simp) (h.not_mem (c := 'X') (by decide) (by decide))
  · rfl

/-- Marked figures are recognized. -/
theorem hasHexMark_of_marked (h : Marked cs n) : hasHexMark cs = true := by
  cases h <;> rfl

/-- A mark behind the sign makes an operand hexadecimal, and no mark makes it
decimal. -/
theorem isOperand_iff : IsOperand cs i ↔
    if hasHexMark (splitSign cs).2 then IsHexadecimal cs i else IsDecimal cs i := by
  have hmarked : ∀ cs n, Marked cs n → cs.head? ≠ some '-' :=
    fun _ _ h => head?_ne_minus_of_hex (.inr h)
  have hfigures : ∀ cs n, Figures 10 cs n → cs.head? ≠ some '-' :=
    fun _ _ h => h.head?_ne_minus
  rw [IsOperand, IsDecimal, IsHexadecimal, signed_iff hmarked, signed_iff hfigures,
    signed_iff fun _ _ => head?_ne_minus_of_hex]
  generalize (splitSign cs).2 = rest
  by_cases hmark : hasHexMark rest = true
  · have hten (n : Nat) : ¬ Figures 10 rest n := fun h => by simp [hasHexMark_of_figures h] at hmark
    have hsixteen (n : Nat) : ¬ Figures 16 rest n := fun h => by
      simp [hasHexMark_of_figures h] at hmark
    simp [hmark, hten, hsixteen]
  · have hnone (n : Nat) : ¬ Marked rest n := fun h => hmark (hasHexMark_of_marked h)
    simp [hmark, hnone]

/-! ## Reading -/

/-- Exactly the operands are read, each with its value, with any blanks around
them. -/
theorem ofOperand_reads (s : String) : Reads (ofOperand s) fun i =>
    ∃ numeral, BlanksAround s.toList numeral ∧ IsOperand numeral i := by
  have htrim (i : Int) : (∃ numeral, BlanksAround s.toList numeral ∧ IsOperand numeral i) ↔
      IsOperand (trimBlanks s.toList) i := by
    constructor
    · rintro ⟨numeral, hblanks, hnumeral⟩
      rwa [hblanks.trimBlanks_eq hnumeral.not_blank]
    · exact fun h => ⟨_, blanksAround_trimBlanks _, h⟩
  have hdecimal := ofDecimal_reads (String.ofList (trimBlanks s.toList))
  have hhex := ofHex_reads (String.ofList (trimBlanks s.toList))
  rw [String.toList_ofList] at hdecimal hhex
  refine Reads.congr ?_ fun i => (htrim i).trans isOperand_iff
  unfold ofOperand
  by_cases hmark : hasHexMark (splitSign (trimBlanks s.toList)).2 = true
  · simpa [hmark] using hhex
  · simpa [hmark] using hdecimal

/-! ## Writing -/

/-- In a field of no width a numeral is laid out as it is. -/
theorem apply_default (x : Integer) (form : Form) (mark figures : List Char) :
    ({ form } : Layout).apply x.negative mark figures = x.sign ++ figures := by
  simp [Layout.apply, Layout.pad, sign]

/-- The layout in capitals is the hexadecimal numeral. -/
theorem layOut_upperHex (x : Integer) : x.layOut { form := .upperHex } = x.toHex := by
  simp only [layOut, toHex, apply_default]

/-- The layout in small letters is the same numeral in small letters. -/
theorem Denotes.layOut_lowerHex (h : x.Denotes i) :
    (x.layOut { form := .lowerHex }).toList = x.toHex.toList.map Char.toLower := by
  have hlower : x.hexFigures false = (x.hexFigures true).map Char.toLower := by
    rw [h.hexFigures_eq.1, h.hexFigures_eq.2]
  have hsign : x.sign.map Char.toLower = x.sign := by
    unfold sign
    split <;> decide
  simp only [layOut, toHex, apply_default, String.toList_ofList, List.map_append, hsign, hlower]

/-- The sign, a mark and the figures of either case are an operand. -/
theorem Denotes.isOperand_marked (h : x.Denotes i) {mark : Char} (hmark : mark ∈ ['x', 'X'])
    (upper : Bool) : IsOperand (x.sign ++ '0' :: mark :: x.hexFigures upper) i := by
  have hfigures := h.figures_hexFigures upper
  have hmarked : Marked ('0' :: mark :: x.hexFigures upper) i.natAbs := by
    rcases List.mem_pair.mp hmark with rfl | rfl
    · exact .lower hfigures
    · exact .upper hfigures
  rw [h.sign_eq_ite]
  exact .inr (signed_natAbs hmarked)

/-! ## The round trip -/

/-- Exactly the hexadecimal numerals are read, and exactly the operands with
any blanks around them, each with its value; any other text is an error of the
text.  A canonical integer is written as the canonical numeral of its value,
and what is written is read back, as an operand with any blanks around it if
it is decimal or has a mark. -/
theorem hexadecimal_round_trip (s : String) (hx : x.Canonical) :
    Reads (ofHex s) (IsHexadecimal s.toList) ∧
    (∀ t : String, IsCanonical 16 t.toList x.toInt ↔ t = x.toHex) ∧
    (x.layOut { form := .upperHex } = x.toHex ∧
      (x.layOut { form := .lowerHex }).toList = x.toHex.toList.map Char.toLower) ∧
    (∃ y, ofHex x.toHex = .ok y ∧ y.equals x = true) ∧
    (Reads (ofOperand s) fun i =>
      ∃ numeral, BlanksAround s.toList numeral ∧ IsOperand numeral i) ∧
    ∀ text, (text = x.toDecimal.toList ∨ ∃ mark ∈ ['x', 'X'], ∃ upper,
        text = x.sign ++ '0' :: mark :: x.hexFigures upper) →
      ∀ t : String, BlanksAround t.toList text → ∃ y, ofOperand t = .ok y ∧ y.equals x = true := by
  have hcanonical := hx.denotes.isCanonical_sixteen_iff.mpr rfl
  refine ⟨ofHex_reads s, fun t => hx.denotes.isCanonical_sixteen_iff,
    ⟨layOut_upperHex x, hx.denotes.layOut_lowerHex⟩, ?_, ofOperand_reads s, ?_⟩
  · have hnumeral : IsHexadecimal x.toHex.toList x.toInt :=
      hcanonical.signed.imp fun _ _ => .inl
    obtain ⟨y, hy, hi⟩ := (ofHex_reads x.toHex).ok _ hnumeral
    exact ⟨y, hy, (hi.equals_iff hx.denotes).mpr rfl⟩
  · intro text htext t hblanks
    have hoperand : IsOperand text x.toInt := by
      rcases htext with rfl | ⟨mark, hmark, upper, rfl⟩
      · exact .inl (hx.denotes.isCanonical_ten_iff.mpr rfl).signed
      · exact hx.denotes.isOperand_marked hmark upper
    obtain ⟨y, hy, hi⟩ := (ofOperand_reads t).ok _ ⟨text, hblanks, hoperand⟩
    exact ⟨y, hy, (hi.equals_iff hx.denotes).mpr rfl⟩

/-- The figures of a mark are read in either case, and blanks and reserved
places are not seen. -/
theorem hexadecimal_round_trip_reserved :
    (⟨true, [5, 1, 0]⟩ : Integer).Canonical ∧
      (⟨true, [5, 1, 0]⟩ : Integer).toHex = "-40000005" ∧
      IsHexadecimal "-0xfF".toList (-255) ∧
      (∃ y, ofHex "-0xfF" = .ok y ∧ y.Denotes (-255)) ∧
      BlanksAround " -0X40000005  ".toList "-0X40000005".toList ∧
      ∃ y, ofOperand " -0X40000005  " = .ok y ∧ y.equals ⟨true, [5, 1, 0]⟩ = true := by
  have hx : (⟨true, [5, 1, 0]⟩ : Integer).Canonical := ⟨by simp [Digits.base], fun _ => rfl⟩
  have hwrite : (⟨true, [5, 1, 0]⟩ : Integer).toHex = "-40000005" := by decide +kernel
  have htext : "-0X40000005".toList = (⟨true, [5, 1, 0]⟩ : Integer).sign ++
      '0' :: 'X' :: (⟨true, [5, 1, 0]⟩ : Integer).hexFigures true := by
    decide +kernel
  have hlower : Text.IsFigure 16 'f' 15 := by simp [Text.IsFigure, lowerFigures]
  have hupper : Text.IsFigure 16 'F' 15 := by simp [Text.IsFigure, upperFigures]
  have hnumeral : IsHexadecimal "-0xfF".toList (-255) :=
    .minus (.inr (.lower ((Figures.single hlower).append hupper)))
  have hspace : isBlank ' ' = true := by decide
  have hblanks : BlanksAround " -0X40000005  ".toList "-0X40000005".toList :=
    ⟨[' '], [' ', ' '], by simp [hspace], by simp [hspace], by decide⟩
  obtain ⟨hread, -, -, -, -, hback⟩ := hexadecimal_round_trip "-0xfF" hx
  exact ⟨hx, hwrite, hnumeral, hread.ok (-255) hnumeral, hblanks,
    hback _ (.inr ⟨'X', by simp, true, htext⟩) _ hblanks⟩

end Multiprecision.Integer
