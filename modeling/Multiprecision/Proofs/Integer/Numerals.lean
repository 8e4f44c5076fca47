import Mathlib
import Multiprecision.Integer.Hexadecimal
import Multiprecision.Proofs.Integer
import Multiprecision.Proofs.Outcome
import Multiprecision.Proofs.Text.Numeral

/-!
# Multiprecision.Proofs.Integer.Numerals

What numerals of both radices have in common:

* `Reads` — what a reader of texts has to be right about;
* `reads_signed` — a reader that splits a sign off and is right about the rest
  reads the numerals with a sign;
* `isFigure_iff` — the characters that have a value are the figures.
-/

namespace Multiprecision.Integer

open Text

variable {x : Integer} {i : Int} {b : Nat} {cs : List Char}

/-! ## Readers -/

/-- The result of reading a text of which `Value` says what number it writes:
that number, or an error of the text if it writes none. -/
structure Reads (result : Except Error Integer) (Value : Int → Prop) : Prop where
  ok : ∀ i, Value i → ∃ y, result = .ok y ∧ y.Denotes i
  error : (∀ i, ¬ Value i) → ∃ reason, result = .error (.parse reason)

variable {result : Except Error Integer} {Value : Int → Prop}

/-- What is read may be described in any equivalent way. -/
theorem Reads.congr {Value' : Int → Prop} (h : Reads result Value)
    (hiff : ∀ i, Value' i ↔ Value i) : Reads result Value' where
  ok i hi := h.ok i ((hiff i).mp hi)
  error hnone := h.error fun i hi => hnone i ((hiff i).mpr hi)

/-- Whatever is read is canonical. -/
theorem Reads.ensures (h : Reads result Value) : Ensures Canonical result := by
  intro y hy
  by_cases hvalue : ∃ i, Value i
  · obtain ⟨i, hi⟩ := hvalue
    obtain ⟨z, hz, hdenotes⟩ := h.ok i hi
    cases Except.ok.inj (hz.symm.trans hy)
    exact hdenotes.canonical
  · obtain ⟨reason, hreason⟩ := h.error (not_exists.mp hvalue)
    rw [hy] at hreason
    contradiction

/-! ## Signs -/

/-- Without a sign in front there is nothing to take off. -/
theorem splitSign_of_ne (h : cs.head? ≠ some '-') : splitSign cs = (false, cs) := by
  unfold splitSign
  split
  · exact absurd rfl h
  · rfl

/-- A numeral with a sign, by the sign that is split off. -/
theorem signed_iff {Unsigned : List Char → Nat → Prop}
    (hminus : ∀ cs n, Unsigned cs n → cs.head? ≠ some '-') : Signed Unsigned cs i ↔
      ∃ n, Unsigned (splitSign cs).2 n ∧ i = if (splitSign cs).1 then -(n : Int) else n := by
  constructor
  · intro h
    cases h with
    | plain h =>
      rw [splitSign_of_ne (hminus _ _ h)]
      exact ⟨_, h, rfl⟩
    | minus h => exact ⟨_, h, rfl⟩
  · rintro ⟨n, h, rfl⟩
    by_cases hhead : cs.head? = some '-'
    · obtain ⟨rest, rfl⟩ := List.head?_eq_some_iff.mp hhead
      exact .minus h
    · rw [splitSign_of_ne hhead] at h ⊢
      exact .plain h

/-- A reader that splits a sign off and is right about the rest reads the
numerals with a sign. -/
theorem reads_signed {Unsigned : List Char → Nat → Prop} (body : List Char → Integer)
    (hminus : ∀ cs n, Unsigned cs n → cs.head? ≠ some '-')
    (hbody : ∀ cs n, Unsigned cs n → (body cs).Denotes n)
    (hread : (∃ n, Unsigned (splitSign cs).2 n) → result = .ok
      { body (splitSign cs).2 with negative := (splitSign cs).1 }.normalizeSign)
    (herror : (¬ ∃ n, Unsigned (splitSign cs).2 n) → ∃ reason, result = .error (.parse reason)) :
    Reads result (Signed Unsigned cs) where
  ok i hi := by
    obtain ⟨n, hn, rfl⟩ := (signed_iff hminus).mp hi
    have hdenotes := hbody _ n hn
    exact ⟨_, hread ⟨n, hn⟩, denotes_withSign hdenotes.inRange hdenotes.value_digits⟩
  error hnone := herror fun ⟨n, hn⟩ => hnone _ ((signed_iff hminus).mpr ⟨n, hn, rfl⟩)

/-- The sign is written in front of negative numbers only. -/
theorem Denotes.sign_eq_ite (h : x.Denotes i) : x.sign = if i < 0 then ['-'] else [] := by
  rw [sign, h.negative]
  simp

/-! ## Single figures -/

theorem toNat_le {a b : Char} : a ≤ b ↔ a.toNat ≤ b.toNat := Iff.rfl

/-- Each of the sixteen figures has the value of its place, in either case. -/
theorem hexValue?_figures : ∀ d : Fin 16,
    hexValue? upperFigures[d] = some d.val ∧ hexValue? lowerFigures[d] = some d.val := by
  decide

/-- A character with a value is one of the figures, large or small. -/
theorem exists_of_hexValue? {c : Char} {d : Nat} (h : hexValue? c = some d) :
    upperFigures[d]? = some c ∨ lowerFigures[d]? = some c := by
  have hc : c = Char.ofNat c.toNat := (Char.ofNat_toNat c).symm
  simp only [hexValue?, Bool.and_eq_true, decide_eq_true_eq, toNat_le] at h
  have h0 : '0'.toNat = 48 := rfl
  have h9 : '9'.toNat = 57 := rfl
  have hA : 'A'.toNat = 65 := rfl
  have hF : 'F'.toNat = 70 := rfl
  have ha : 'a'.toNat = 97 := rfl
  have hf : 'f'.toNat = 102 := rfl
  rw [h0, h9, hA, hF, ha, hf] at h
  generalize c.toNat = n at h hc
  subst hc
  split_ifs at h with hfigure hupper hlower
  · obtain ⟨hlo, hhi⟩ := hfigure
    obtain rfl := Option.some.inj h
    interval_cases n <;> simp [upperFigures]
  · obtain ⟨hlo, hhi⟩ := hupper
    obtain rfl := Option.some.inj h
    interval_cases n <;> simp [upperFigures]
  · obtain ⟨hlo, hhi⟩ := hlower
    obtain rfl := Option.some.inj h
    interval_cases n <;> simp [lowerFigures]

/-- A figure is a character with a value below the base. -/
theorem isFigure_iff {c : Char} {d : Nat} : Text.IsFigure b c d ↔ d < b ∧ hexValue? c = some d := by
  constructor
  · rintro ⟨hlt, h | h⟩
    · obtain ⟨hd, rfl⟩ := List.getElem?_eq_some_iff.mp h
      exact ⟨hlt, (hexValue?_figures ⟨d, hd⟩).1⟩
    · obtain ⟨hd, rfl⟩ := List.getElem?_eq_some_iff.mp h
      exact ⟨hlt, (hexValue?_figures ⟨d, hd⟩).2⟩
  · rintro ⟨hlt, h⟩
    exact ⟨hlt, exists_of_hexValue? h⟩

/-- To the base of sixteen every value is one of a figure. -/
theorem isFigure_sixteen_iff {c : Char} {d : Nat} :
    Text.IsFigure 16 c d ↔ hexValue? c = some d := by
  rw [isFigure_iff, and_iff_right_iff_imp]
  intro h
  rcases exists_of_hexValue? h with hd | hd
  · exact (List.getElem?_eq_some_iff.mp hd).1
  · exact (List.getElem?_eq_some_iff.mp hd).1

end Multiprecision.Integer
