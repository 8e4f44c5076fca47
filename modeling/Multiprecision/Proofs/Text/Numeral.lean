import Mathlib
import Multiprecision.Text.Numeral

/-!
# Multiprecision.Proofs.Text.Numeral

What follows from the rules for numerals alone:

* `figures_iff` — figures are characters with values, and the number that they
  write is that of the values;
* `isCanonical_iff` — a number has exactly one canonical numeral, made of its
  digits to the base (`canonicalFigures`);
* `BlanksAround.trimBlanks_eq` — an operand has no blanks, so it is what
  trimming leaves.

Facts about figures are by induction from the left, which is the recursion of
`Nat.digits` read backwards.
-/

namespace Multiprecision.Text

variable {b d n : Nat} {c : Char} {cs : List Char}

/-! ## Single figures -/

/-- The figure of value `d` in upper case. -/
def upperFigure (d : Nat) : Char := upperFigures.getD d '0'

/-- The figure of a digit below the base has it as its value. -/
theorem isFigure_upperFigure (hb : b ≤ 16) (hd : d < b) : IsFigure b (upperFigure d) d := by
  have hlt : d < upperFigures.length := Nat.lt_of_lt_of_le hd hb
  simp [IsFigure, upperFigure, hd, hlt]

theorem upperFigure_mem (hd : d < 16) : upperFigure d ∈ upperFigures := by
  have hlt : d < upperFigures.length := hd
  simp [upperFigure, hlt]

/-- Only zero is written as a zero. -/
theorem upperFigure_eq_zero (hd : d < 16) (h : upperFigure d = '0') : d = 0 := by
  revert h
  revert d
  decide

/-- No figure is worth more than fifteen. -/
theorem IsFigure.lt_sixteen (h : IsFigure b c d) : d < 16 := by
  obtain ⟨-, h | h⟩ := h
  · exact (List.getElem?_eq_some_iff.mp h).1
  · exact (List.getElem?_eq_some_iff.mp h).1

/-- Figures are visible characters of the ASCII range. -/
theorem IsFigure.ascii (h : IsFigure b c d) : 32 < c.toNat ∧ c.toNat < 128 := by
  have hall : ∀ d : Fin 16, (32 < upperFigures[d].toNat ∧ upperFigures[d].toNat < 128) ∧
      32 < lowerFigures[d].toNat ∧ lowerFigures[d].toNat < 128 := by
    decide
  obtain ⟨-, h | h⟩ := h
  · obtain ⟨hd, rfl⟩ := List.getElem?_eq_some_iff.mp h
    exact (hall ⟨d, hd⟩).1
  · obtain ⟨hd, rfl⟩ := List.getElem?_eq_some_iff.mp h
    exact (hall ⟨d, hd⟩).2

/-- A figure that is not a lower-case letter is the upper-case one. -/
theorem IsFigure.eq_upperFigure (h : IsFigure b c d) (hc : c ∈ upperFigures) :
    c = upperFigure d := by
  obtain ⟨-, h | h⟩ := h
  · simp [upperFigure, h]
  · obtain ⟨hd, rfl⟩ := List.getElem?_eq_some_iff.mp h
    have hall : ∀ d : Fin 16, lowerFigures[d] ∈ upperFigures → lowerFigures[d] = upperFigure d := by
      decide
    exact hall ⟨d, hd⟩ hc

/-- A letter has the same value in lower case. -/
theorem IsFigure.toLower (h : IsFigure b c d) (hc : c ∈ upperFigures) :
    IsFigure b c.toLower d := by
  have hlower : ∀ d : Fin 16, (upperFigure d).toLower = lowerFigures[d] := by decide
  have hd := h.lt_sixteen
  rw [h.eq_upperFigure hc, hlower ⟨d, hd⟩]
  exact ⟨h.1, .inr (List.getElem?_eq_getElem hd)⟩

/-! ## Figures in a row -/

theorem Figures.ne_nil (h : Figures b cs n) : cs ≠ [] := by
  cases h <;> simp

/-- Figures of digits that are given from the lowest on. -/
theorem figures_reverse {ds : List Nat} (h : List.Forall₂ (IsFigure b) cs ds) (hne : cs ≠ []) :
    Figures b cs.reverse (Nat.ofDigits b ds) := by
  induction h with
  | nil => contradiction
  | @cons c d cs ds hd hds ih =>
    by_cases hnil : cs = []
    · subst hnil
      cases List.forall₂_nil_left_iff.mp hds
      simpa using Figures.single hd
    · have happend := (ih hnil).append hd
      rwa [Nat.add_comm, Nat.mul_comm, ← List.reverse_cons, ← Nat.cast_id d,
        ← Nat.ofDigits_cons] at happend

/-- Figures are characters that have a value, and the number is that of the
values. -/
theorem figures_iff : Figures b cs n ↔
    cs ≠ [] ∧ ∃ ds, List.Forall₂ (IsFigure b) cs ds ∧ n = Nat.ofDigits b ds.reverse := by
  constructor
  · intro h
    refine ⟨h.ne_nil, ?_⟩
    induction h with
    | single h => exact ⟨[_], .cons h .nil, by simp⟩
    | append _ h ih =>
      obtain ⟨ds, hds, hn⟩ := ih
      refine ⟨ds ++ [_], List.rel_append hds (.cons h .nil), ?_⟩
      simp [Nat.ofDigits_cons, hn]
      ring
  · rintro ⟨hne, ds, hds, rfl⟩
    have hreverse := figures_reverse (List.rel_reverse hds) (by simpa using hne)
    rwa [List.reverse_reverse] at hreverse

/-- Every character of a numeral is a figure. -/
theorem Figures.exists_isFigure (h : Figures b cs n) : ∀ c ∈ cs, ∃ d, IsFigure b c d := by
  induction h with
  | single h => simpa using ⟨_, h⟩
  | append _ h ih =>
    simp only [List.mem_append, List.mem_singleton]
    rintro c (hc | rfl)
    · exact ih c hc
    · exact ⟨_, h⟩

/-- Small letters write the same number as capitals. -/
theorem Figures.map_toLower (h : Figures b cs n) (hupper : ∀ c ∈ cs, c ∈ upperFigures) :
    Figures b (cs.map Char.toLower) n := by
  induction h with
  | single h => exact .single (h.toLower (hupper _ (by simp)))
  | append _ h ih =>
    rw [List.map_append]
    exact (ih fun c hc => hupper c (by simp [hc])).append (h.toLower (hupper _ (by simp)))

/-- Characters write a number if there are any and all of them are figures. -/
theorem exists_figures_iff :
    (∃ n, Figures b cs n) ↔ cs ≠ [] ∧ ∀ c ∈ cs, ∃ d, IsFigure b c d := by
  constructor
  · rintro ⟨n, h⟩
    exact ⟨h.ne_nil, h.exists_isFigure⟩
  · rintro ⟨hne, hall⟩
    choose! value hvalue using hall
    have hds : List.Forall₂ (IsFigure b) cs (cs.map value) := by
      rw [List.forall₂_map_right_iff, List.forall₂_same]
      exact hvalue
    exact ⟨_, figures_iff.mpr ⟨hne, _, hds, rfl⟩⟩

/-- A character that is no figure is not among them. -/
theorem Figures.not_mem (h : Figures b cs n) (hupper : c ∉ upperFigures)
    (hlower : c ∉ lowerFigures) : c ∉ cs := by
  intro hc
  obtain ⟨d, -, hd | hd⟩ := h.exists_isFigure c hc
  · exact hupper (List.mem_of_getElem? hd)
  · exact hlower (List.mem_of_getElem? hd)

/-- A minus sign is no figure. -/
theorem Figures.head?_ne_minus (h : Figures b cs n) : cs.head? ≠ some '-' := fun hhead =>
  h.not_mem (by decide) (by decide) (List.mem_of_head? hhead)

/-! ## Canonical numerals -/

/-- The figures of `n` to the base `b`, with one zero for zero. -/
def canonicalFigures (b n : Nat) : List Char :=
  if n = 0 then ['0'] else ((Nat.digits b n).map upperFigure).reverse

/-- A number below the base is written with one figure. -/
theorem canonicalFigures_of_lt (hd : d < b) : canonicalFigures b d = [upperFigure d] := by
  unfold canonicalFigures
  by_cases h : d = 0
  · simp [h, upperFigure, upperFigures]
  · simp [h, Nat.digits_of_lt b d h hd]

/-- The lowest digit is written last. -/
theorem canonicalFigures_append (hb : 1 < b) (hn : n ≠ 0) (hd : d < b) :
    canonicalFigures b (n * b + d) = canonicalFigures b n ++ [upperFigure d] := by
  have hpos : n * b + d ≠ 0 := by positivity
  have hdigits : Nat.digits b (n * b + d) = d :: Nat.digits b n := by
    rw [Nat.add_comm, Nat.mul_comm, Nat.digits_add b hb d n hd (.inr hn)]
  rw [canonicalFigures, canonicalFigures, if_neg hpos, if_neg hn, hdigits, List.map_cons,
    List.reverse_cons]

/-- Every number is a single digit or has one more than its quotient. -/
theorem digit_induction {P : Nat → Prop} (hb : 1 < b) (single : ∀ d < b, P d)
    (append : ∀ n d, n ≠ 0 → d < b → P n → P (n * b + d)) (n : Nat) : P n := by
  induction n using Nat.strong_induction_on with
  | _ n ih =>
    by_cases hlt : n < b
    · exact single n hlt
    · have hquotient : n / b ≠ 0 := by
        rw [Nat.div_ne_zero_iff]
        omega
      have hsmaller : n / b < n := Nat.div_lt_self (by omega) hb
      have happend := append (n / b) (n % b) hquotient (Nat.mod_lt _ (by omega)) (ih _ hsmaller)
      rwa [Nat.div_add_mod' n b] at happend

/-- The canonical figures write the number, in capitals and without leading
zeros. -/
theorem canonicalFigures_spec (hb : 1 < b) (hb16 : b ≤ 16) (n : Nat) :
    Figures b (canonicalFigures b n) n ∧ (∀ c ∈ canonicalFigures b n, c ∈ upperFigures) ∧
      ((canonicalFigures b n).head? = some '0' → canonicalFigures b n = ['0']) := by
  suffices h : Figures b (canonicalFigures b n) n ∧
      (∀ c ∈ canonicalFigures b n, c ∈ upperFigures) ∧
      ((canonicalFigures b n).head? = some '0' → n = 0) by
    exact ⟨h.1, h.2.1, fun hhead => by simp [canonicalFigures, h.2.2 hhead]⟩
  induction n using digit_induction hb with
  | single d hd =>
    have hd16 : d < 16 := hd.trans_le hb16
    rw [canonicalFigures_of_lt hd]
    refine ⟨.single (isFigure_upperFigure hb16 hd), ?_, ?_⟩
    · simpa using upperFigure_mem hd16
    · simpa using upperFigure_eq_zero hd16
  | append n d hn hd ih =>
    obtain ⟨hfigures, hupper, hhead⟩ := ih
    rw [canonicalFigures_append hb hn hd]
    refine ⟨hfigures.append (isFigure_upperFigure hb16 hd), ?_, ?_⟩
    · simp only [List.mem_append, List.mem_singleton]
      rintro c (hc | rfl)
      · exact hupper c hc
      · exact upperFigure_mem (hd.trans_le hb16)
    · rw [List.head?_append_of_ne_nil _ hfigures.ne_nil]
      exact fun h => absurd (hhead h) hn

/-- Upper-case figures without a zero in front are those of the digits. -/
theorem Figures.eq_canonicalFigures (hb : 1 < b) (h : Figures b cs n)
    (hupper : ∀ c ∈ cs, c ∈ upperFigures) (hhead : cs.head? = some '0' → cs = ['0']) :
    cs = canonicalFigures b n := by
  induction h with
  | single h =>
    rw [canonicalFigures_of_lt h.1, ← h.eq_upperFigure (hupper _ (by simp))]
  | @append cs n c d hcs h ih =>
    have hne := hcs.ne_nil
    -- The figures have no zero in front, since one more figure follows.
    have hnonzero : cs.head? ≠ some '0' := by
      intro hzero
      have hone := congrArg List.length (hhead (by rw [List.head?_append_of_ne_nil _ hne, hzero]))
      have hpos := List.length_pos_iff.mpr hne
      rw [List.length_append, List.length_singleton, List.length_singleton] at hone
      omega
    have heq := ih (fun c hc => hupper c (by simp [hc])) fun hzero => absurd hzero hnonzero
    have hn : n ≠ 0 := by
      rintro rfl
      exact hnonzero (by simp [heq, canonicalFigures])
    rw [canonicalFigures_append hb hn h.1, ← heq, ← h.eq_upperFigure (hupper c (by simp))]

/-- A number has one canonical numeral. -/
theorem isCanonical_iff (hb : 1 < b) (hb16 : b ≤ 16) {i : Int} : IsCanonical b cs i ↔
    cs = (if i < 0 then ['-'] else []) ++ canonicalFigures b i.natAbs := by
  constructor
  · rintro ⟨figures, hfigures, hupper, hhead, rfl⟩
    rw [hfigures.eq_canonicalFigures hb hupper hhead]
  · rintro rfl
    obtain ⟨hfigures, hupper, hhead⟩ := canonicalFigures_spec hb hb16 i.natAbs
    exact ⟨_, hfigures, hupper, hhead, rfl⟩

/-- A numeral of the magnitude with the sign that belongs to it. -/
theorem signed_natAbs {Unsigned : List Char → Nat → Prop} {i : Int} (h : Unsigned cs i.natAbs) :
    Signed Unsigned ((if i < 0 then ['-'] else []) ++ cs) i := by
  by_cases hi : i < 0
  · have hminus := Signed.minus h
    rw [Int.ofNat_natAbs_of_nonpos hi.le, neg_neg] at hminus
    simpa [hi] using hminus
  · have hplain := Signed.plain h
    rw [Int.natAbs_of_nonneg (not_lt.mp hi)] at hplain
    simpa [hi] using hplain

/-- A canonical numeral is a numeral of the same number. -/
theorem IsCanonical.signed {i : Int} (h : IsCanonical b cs i) : Signed (Figures b) cs i := by
  obtain ⟨figures, hfigures, -, -, rfl⟩ := h
  exact signed_natAbs hfigures

/-! ## Blanks -/

/-- What is trimmed stood between blanks. -/
theorem blanksAround_trimBlanks (cs : List Char) : BlanksAround cs (trimBlanks cs) := by
  set rest := (cs.dropWhile isBlank).reverse with hrest
  have hfront := List.takeWhile_append_dropWhile (p := isBlank) (l := cs)
  have hback := List.takeWhile_append_dropWhile (p := isBlank) (l := rest)
  refine ⟨cs.takeWhile isBlank, (rest.takeWhile isBlank).reverse,
    fun c hc => List.mem_takeWhile_imp hc,
    fun c hc => List.mem_takeWhile_imp (List.mem_reverse.mp hc), ?_⟩
  rw [trimBlanks, ← hrest, List.append_assoc, ← List.reverse_append, hback, hrest,
    List.reverse_reverse, hfront]

/-- A text without blanks is what trimming leaves of it. -/
theorem BlanksAround.trimBlanks_eq {inner : List Char} (h : BlanksAround cs inner)
    (hinner : ∀ c ∈ inner, isBlank c = false) : trimBlanks cs = inner := by
  obtain ⟨before, after, hbefore, hafter, rfl⟩ := h
  rw [trimBlanks, List.append_assoc, List.dropWhile_append_of_pos hbefore]
  cases inner with
  | nil =>
    have hnil : after.dropWhile isBlank = [] := List.dropWhile_eq_nil_iff.mpr hafter
    simp [hnil]
  | cons c rest =>
    have hc : ¬ isBlank c = true := by simp [hinner c (by simp)]
    have hkeep : (c :: rest).reverse.dropWhile isBlank = (c :: rest).reverse := by
      rw [List.dropWhile_eq_self_iff]
      intro hpos
      have hmem := List.mem_reverse.mp (List.getElem_mem hpos)
      simp only [hinner _ hmem, Bool.false_eq_true, not_false_eq_true]
    rw [List.cons_append, List.dropWhile_cons_of_neg hc, ← List.cons_append, List.reverse_append,
      List.dropWhile_append_of_pos fun d hd => hafter d (List.mem_reverse.mp hd), hkeep,
      List.reverse_reverse]

/-- A visible character of the ASCII range is no blank. -/
theorem not_blank_of_ascii (hlo : 32 < c.toNat) (hhi : c.toNat < 128) : isBlank c = false := by
  have hall : ∀ m ∈ blanks, m ≤ 32 ∨ 128 ≤ m := by decide
  by_contra hblank
  have hmem : c.toNat ∈ blanks := by simpa [isBlank] using hblank
  have hrange := hall _ hmem
  omega

/-- No figure is a blank. -/
theorem Figures.not_blank (h : Figures b cs n) : ∀ c ∈ cs, isBlank c = false := by
  intro c hc
  obtain ⟨d, hd⟩ := h.exists_isFigure c hc
  exact not_blank_of_ascii hd.ascii.1 hd.ascii.2

/-- Numerals with a sign are of any kind that those without one are of. -/
theorem Signed.imp {Unsigned Unsigned' : List Char → Nat → Prop} {i : Int}
    (h : Signed Unsigned cs i) (himp : ∀ cs n, Unsigned cs n → Unsigned' cs n) :
    Signed Unsigned' cs i := by
  cases h with
  | plain h => exact .plain (himp _ _ h)
  | minus h => exact .minus (himp _ _ h)

theorem Signed.not_blank {Unsigned : List Char → Nat → Prop} {i : Int}
    (hunsigned : ∀ cs n, Unsigned cs n → ∀ c ∈ cs, isBlank c = false)
    (h : Signed Unsigned cs i) : ∀ c ∈ cs, isBlank c = false := by
  cases h with
  | plain h => exact hunsigned _ _ h
  | minus h =>
    have hminus : isBlank '-' = false := not_blank_of_ascii (by decide) (by decide)
    exact List.forall_mem_cons.mpr ⟨hminus, hunsigned _ _ h⟩

/-- An operand has no blanks. -/
theorem IsOperand.not_blank {i : Int} (h : IsOperand cs i) : ∀ c ∈ cs, isBlank c = false := by
  rcases h with h | h
  · exact h.not_blank fun _ _ h => h.not_blank
  · refine h.not_blank fun _ _ h => ?_
    have hzero : isBlank '0' = false := not_blank_of_ascii (by decide) (by decide)
    have hlower : isBlank 'x' = false := not_blank_of_ascii (by decide) (by decide)
    have hupper : isBlank 'X' = false := not_blank_of_ascii (by decide) (by decide)
    cases h with
    | lower h => simpa [hzero, hlower] using h.not_blank
    | upper h => simpa [hzero, hupper] using h.not_blank

end Multiprecision.Text
