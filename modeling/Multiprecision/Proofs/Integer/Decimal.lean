import Mathlib
import Multiprecision.Proofs.Integer.Numerals
import Multiprecision.Proofs.Integer.Word

/-!
# Multiprecision.Proofs.Integer.Decimal

Decimal numerals in both directions:

* `Denotes.readFigures` — groups of nine figures add up to the number that
  the figures write;
* `ofDecimal_reads` — exactly the decimal numerals are read, with their value;
* `Denotes.decimalGroups_eq` — the groups that are written are the digits to
  the base of a thousand million, and the passes allowed are enough for them;
* `Denotes.decimalFigures_eq` — they make the canonical figures, since every
  group but the first is filled up with zeros;
* `decimal_round_trip` — the two together.
-/

namespace Multiprecision.Integer

open Text Digits

variable {x : Integer} {i : Int} {b : Nat} {cs : List Char} {s : String}

/-! ## Reading -/

/-- A decimal figure and its value. -/
theorem isFigure_ten_iff {c : Char} {d : Nat} :
    Text.IsFigure 10 c d ↔ Integer.isFigure c = true ∧ d = c.toNat - '0'.toNat := by
  rw [isFigure_iff]
  simp only [hexValue?, isFigure, Bool.and_eq_true, decide_eq_true_eq, toNat_le]
  have h0 : '0'.toNat = 48 := rfl
  have h9 : '9'.toNat = 57 := rfl
  have hA : 'A'.toNat = 65 := rfl
  have ha : 'a'.toNat = 97 := rfl
  split_ifs <;> simp <;> omega

/-- A group of up to nine figures behind a number. -/
theorem Denotes.appendGroup (h : x.Denotes i) {figures : Nat} (hfigures : figures ≤ 9)
    (group : Nat) : (x.appendGroup figures group).Denotes (i * 10 ^ figures + group) := by
  have hfits : 10 ^ figures < 2 ^ 32 :=
    (Nat.pow_le_pow_right (by decide) hfigures).trans_lt (by decide)
  have hpower : (UInt32.ofNat (Nat.pow 10 figures)).toNat = 10 ^ figures := by
    rw [UInt32.toNat_ofNat']
    exact Nat.mod_eq_of_lt hfits
  have hproduct := h.mulWord (UInt32.ofNat (Nat.pow 10 figures))
  rw [hpower, Nat.cast_pow, Nat.cast_ofNat] at hproduct
  exact hproduct.add (denotes_ofNat group)

/-- Figures that are read behind `i` and behind the figures of the group that
was begun.  A group ends with the last figure, because every group that is
left, this one apart, is full. -/
theorem Denotes.readFigures (h : x.Denotes i) {ds : List Nat}
    (hds : List.Forall₂ (IsFigure 10) cs ds) {left figures group : Nat} (hleft : 0 < left)
    (hroom : figures + left ≤ 9) (hend : cs = [] → figures = 0 ∧ group = 0)
    (hwhole : cs.length % 9 = left % 9) :
    (Integer.readFigures cs left figures group x).Denotes
      ((i * 10 ^ figures + group) * 10 ^ cs.length + (Nat.ofDigits 10 ds.reverse : Nat)) := by
  have hgroup : decimalGroup = 9 := rfl
  induction hds generalizing left figures group x i with
  | nil =>
    obtain ⟨rfl, rfl⟩ := hend rfl
    simpa [Integer.readFigures] using h
  | @cons c d cs ds hd hds ih =>
    obtain ⟨-, hvalue⟩ := isFigure_ten_iff.mp hd
    rw [List.length_cons] at hwhole
    have hlength := hds.length_eq
    rw [Integer.readFigures, ← hvalue, List.reverse_cons, Nat.ofDigits_append,
      Nat.ofDigits_singleton, List.length_reverse, List.length_cons, ← hlength]
    by_cases hlast : left ≤ 1
    · simp only [if_pos hlast]
      have hfull : figures + 1 ≤ 9 := by omega
      refine (ih (h.appendGroup hfull (10 * group + d)) ?_ ?_ (fun _ => ⟨rfl, rfl⟩) ?_).of_eq ?_
      any_goals omega
      push_cast
      ring
    · have hmore : cs ≠ [] := by
        rintro rfl
        simp at hwhole
        omega
      simp only [if_neg hlast]
      refine (ih h ?_ ?_ (fun hnil => absurd hnil hmore) ?_).of_eq ?_
      any_goals omega
      push_cast
      ring

/-- The figures of a numeral, without its sign, as they are read. -/
def readBody (figures : List Char) : Integer :=
  let first := figures.length % decimalGroup
  Integer.readFigures figures (if first = 0 then decimalGroup else first) 0 0 zero

/-- Figures are read in groups to the number that they write. -/
theorem denotes_readBody {ds : List Nat} (hds : List.Forall₂ (IsFigure 10) cs ds)
    (hne : cs ≠ []) : (readBody cs).Denotes (Nat.ofDigits 10 ds.reverse : Nat) := by
  have hgroup : decimalGroup = 9 := rfl
  have hfirst : ∀ first, first = cs.length % 9 →
      0 < (if first = 0 then 9 else first) ∧ (if first = 0 then 9 else first) ≤ 9 ∧
        cs.length % 9 = (if first = 0 then 9 else first) % 9 := by
    intro first hfirst
    split <;> omega
  obtain ⟨hpos, hle, hwhole⟩ := hfirst _ rfl
  have hread := denotes_zero.readFigures hds hpos (by omega : 0 + _ ≤ 9)
    (fun hnil => absurd hnil hne : cs = [] → 0 = 0 ∧ 0 = 0) hwhole
  simpa [readBody, hgroup] using hread

/-- Decimal figures write a number if there are any and all of them are figures. -/
theorem exists_figures_ten_iff :
    (∃ n, Figures 10 cs n) ↔ cs ≠ [] ∧ ∀ c ∈ cs, isFigure c = true := by
  simp [exists_figures_iff, isFigure_ten_iff]

/-- What figures write is read from them. -/
theorem denotes_readBody_of_figures {n : Nat} (h : Figures 10 cs n) :
    (readBody cs).Denotes n := by
  obtain ⟨hne, ds, hds, rfl⟩ := figures_iff.mp h
  exact denotes_readBody hds hne

/-- A text is read if figures follow the sign and nothing else. -/
theorem ofDecimal_of_figures (hne : (splitSign s.toList).2 ≠ [])
    (hall : ∀ c ∈ (splitSign s.toList).2, isFigure c = true) :
    ofDecimal s = .ok
      { readBody (splitSign s.toList).2 with negative := (splitSign s.toList).1 }.normalizeSign := by
  have hs : s.isEmpty = false := by
    by_contra hempty
    simp at hempty
    simp [hempty, splitSign] at hne
  have hfind : (splitSign s.toList).2.find? (!isFigure ·) = none := by simpa using hall
  simp [ofDecimal, hs, hne, hfind, readBody]

/-- Every other text is an error of the text. -/
theorem ofDecimal_of_not_figures
    (h : ¬ ((splitSign s.toList).2 ≠ [] ∧ ∀ c ∈ (splitSign s.toList).2, isFigure c = true)) :
    ∃ reason, ofDecimal s = .error (.parse reason) := by
  simp only [ofDecimal]
  split
  · exact ⟨_, rfl⟩
  · split
    · exact ⟨_, rfl⟩
    · next hne =>
      cases hfind : (splitSign s.toList).2.find? (!isFigure ·) with
      | some bad => exact ⟨_, rfl⟩
      | none =>
        have hall : ∀ c ∈ (splitSign s.toList).2, isFigure c = true := by simpa using hfind
        exact absurd ⟨by simpa using hne, hall⟩ h

/-- Exactly the decimal numerals are read, each with its value. -/
theorem ofDecimal_reads (s : String) : Reads (ofDecimal s) (IsDecimal s.toList) := by
  refine reads_signed readBody (fun _ _ h => h.head?_ne_minus)
    (fun _ _ => denotes_readBody_of_figures) ?_ ?_
  · intro h
    obtain ⟨hne, hall⟩ := exists_figures_ten_iff.mp h
    exact ofDecimal_of_figures hne hall
  · intro h
    exact ofDecimal_of_not_figures (mt exists_figures_ten_iff.mpr h)

/-! ## Writing -/

/-- The groups that successive quotients leave. -/
theorem decimalGroups_eq {fuel : Nat} {ds : List Digit} (hds : InRange ds)
    (hlt : value ds < 1000000000 ^ fuel) :
    decimalGroups fuel ds = Nat.digits 1000000000 (value ds) := by
  induction fuel generalizing ds with
  | zero =>
    have hzero : value ds = 0 := by omega
    rw [decimalGroups, hzero, Nat.digits_zero]
  | succ fuel ih =>
    rw [decimalGroups]
    split
    · next hzero => rw [Digits.isZero_iff.mp hzero, Nat.digits_zero]
    · next hne =>
      obtain ⟨hdivide, hq, hr⟩ := divWord_spec (w := 1000000000) hds (by decide) (by decide)
      have hw : (1000000000 : UInt64).toNat = 1000000000 := rfl
      rw [hw] at hdivide hr
      rw [Digits.isZero_iff] at hne
      set q := (Digits.divWord 1000000000 ds).1
      set r := (Digits.divWord 1000000000 ds).2
      have hquotient : value ds / 1000000000 = value q := by omega
      have hremainder : value ds % 1000000000 = r.toNat := by omega
      have hsmaller : value q < 1000000000 ^ fuel := by
        rw [pow_succ] at hlt
        omega
      rw [Nat.digits_def' (by decide) (Nat.pos_of_ne_zero hne), hquotient, hremainder]
      dsimp only
      rw [ih hq.significant (by rwa [value_significant]), value_significant]

/-- Twice as many groups as digits are enough. -/
theorem Denotes.decimalGroups_eq (h : x.Denotes i) :
    decimalGroups (2 * x.capacity) x.significant = Nat.digits 1000000000 i.natAbs := by
  obtain ⟨hrange, hvalue⟩ := h.significant
  have hlt : value x.significant < 1000000000 ^ (2 * x.capacity) := by
    calc value x.significant = value x.digits := value_significant _
      _ < base ^ x.capacity := value_lt h.inRange
      _ ≤ (1000000000 ^ 2) ^ x.capacity := Nat.pow_le_pow_left (by decide) _
      _ = 1000000000 ^ (2 * x.capacity) := (pow_mul _ _ _).symm
  rw [Integer.decimalGroups_eq hrange hlt, hvalue]

/-- Groups that are filled up with zeros to `k` figures. -/
theorem filled_succ {k : Nat} (hk : 1 ≤ k) (g : Nat) :
    List.replicate (k + 1 - (Nat.toDigits 10 g).length) '0' ++ Nat.toDigits 10 g =
      List.replicate (k - (Nat.toDigits 10 (g / 10)).length) '0' ++ Nat.toDigits 10 (g / 10) ++
        [Nat.digitChar (g % 10)] := by
  by_cases hg : g < 10
  · have hzero : g / 10 = 0 := by omega
    have hreplicate : List.replicate k '0' = List.replicate (k - 1) '0' ++ ['0'] := by
      rw [← List.replicate_succ', Nat.sub_add_cancel hk]
    simp [Nat.toDigits_of_lt_base hg, hzero, Nat.mod_eq_of_lt hg, hreplicate]
  · rw [Nat.toDigits_of_base_le (by decide) (by omega : 10 ≤ g), List.length_append,
      List.length_singleton, Nat.add_sub_add_right, List.append_assoc]

/-- The figures of a number are its canonical ones. -/
theorem toDigits_ten_eq (n : Nat) : Nat.toDigits 10 n = canonicalFigures 10 n := by
  have hfigure : ∀ d : Fin 10, Nat.digitChar d = upperFigure d := by decide
  induction n using digit_induction (by decide : 1 < 10) with
  | single d hd => rw [Nat.toDigits_of_lt_base hd, canonicalFigures_of_lt hd, hfigure ⟨d, hd⟩]
  | append n d hn hd ih =>
    rw [canonicalFigures_append (by decide) hn hd, ← ih, ← hfigure ⟨d, hd⟩,
      ← Nat.toDigits_of_lt_base hd, Nat.mul_comm,
      Nat.toDigits_append_toDigits (by decide) (Nat.pos_of_ne_zero hn) hd]

/-- Canonical figures with a group behind them. -/
theorem canonicalFigures_append_filled {n : Nat} (hn : n ≠ 0) {k g : Nat} (hk : 1 ≤ k)
    (hg : g < 10 ^ k) :
    canonicalFigures 10 n ++
        (List.replicate (k - (Nat.toDigits 10 g).length) '0' ++ Nat.toDigits 10 g) =
      canonicalFigures 10 (n * 10 ^ k + g) := by
  have hfigure : ∀ d : Fin 10, Nat.digitChar d = upperFigure d := by decide
  induction k, hk using Nat.le_induction generalizing g with
  | base =>
    rw [pow_one] at hg ⊢
    rw [Nat.toDigits_of_lt_base hg, canonicalFigures_append (by decide) hn hg]
    simpa using hfigure ⟨g, hg⟩
  | succ k hk ih =>
    have hlow : g % 10 < 10 := Nat.mod_lt g (by decide)
    have hhigh : g / 10 < 10 ^ k := by
      rw [pow_succ] at hg
      omega
    have hpos : n * 10 ^ k + g / 10 ≠ 0 := by positivity
    have hsplit : n * 10 ^ (k + 1) + g = (n * 10 ^ k + g / 10) * 10 + g % 10 := by
      rw [pow_succ, ← Nat.mul_assoc]
      omega
    rw [filled_succ hk, ← List.append_assoc, ih hhigh, hsplit,
      canonicalFigures_append (by decide) hpos hlow, hfigure ⟨g % 10, hlow⟩]

/-- Full groups behind the figures of the top group are the figures of the
number. -/
theorem canonicalFigures_append_groups {top : Nat} (htop : top ≠ 0) {rest : List Nat}
    (hrest : ∀ g ∈ rest, g < 10 ^ 9) :
    canonicalFigures 10 top ++ rest.flatMap fullGroup =
      canonicalFigures 10 (Nat.ofDigits (10 ^ 9) (rest.reverse ++ [top])) := by
  induction rest generalizing top with
  | nil => simp
  | cons g rest ih =>
    have hg : g < 10 ^ 9 := hrest g (by simp)
    have hfilled := canonicalFigures_append_filled htop (by decide : 1 ≤ 9) hg
    have hpos : top * 10 ^ 9 + g ≠ 0 := by positivity
    have hmore := ih hpos fun d hd => hrest d (by simp [hd])
    rw [← hfilled] at hmore
    rw [List.flatMap_cons, ← List.append_assoc]
    refine hmore.trans ?_
    congr 1
    simp only [List.reverse_cons, Nat.ofDigits_append, Nat.ofDigits_singleton, List.append_assoc,
      List.length_singleton, List.length_reverse]
    ring

/-- The figures that are written are the canonical ones. -/
theorem Denotes.decimalFigures_eq (h : x.Denotes i) :
    x.decimalFigures = canonicalFigures 10 i.natAbs := by
  rw [decimalFigures, h.decimalGroups_eq]
  generalize hn : i.natAbs = n
  cases hgroups : (Nat.digits 1000000000 n).reverse with
  | nil =>
    have hzero : n = 0 := Nat.digits_eq_nil_iff_eq_zero.mp (List.reverse_eq_nil_iff.mp hgroups)
    simp [hzero, canonicalFigures]
  | cons top rest =>
    have hdigits : Nat.digits 1000000000 n = rest.reverse ++ [top] := by
      rw [← List.reverse_cons, ← hgroups, List.reverse_reverse]
    have hrest : ∀ g ∈ rest, g < 10 ^ 9 := fun g hg =>
      Nat.digits_lt_base (b := 1000000000) (m := n) (by decide) (by simp [hdigits, hg])
    have htop : top ≠ 0 := by
      have hne : n ≠ 0 := by
        rintro rfl
        simp at hdigits
      have hlast := Nat.getLast_digit_ne_zero 1000000000 hne
      simpa [hdigits] using hlast
    have hvalue : Nat.ofDigits (10 ^ 9) (rest.reverse ++ [top]) = n := by
      rw [← hdigits]
      exact Nat.ofDigits_digits 1000000000 n
    change Nat.toDigits 10 top ++ rest.flatMap fullGroup = canonicalFigures 10 n
    rw [toDigits_ten_eq, canonicalFigures_append_groups htop hrest, hvalue]

/-- The numeral that is written is the canonical one, and no other is. -/
theorem Denotes.isCanonical_ten_iff (h : x.Denotes i) {t : String} :
    IsCanonical 10 t.toList i ↔ t = x.toDecimal := by
  rw [isCanonical_iff (by decide) (by decide), ← h.decimalFigures_eq, ← h.sign_eq_ite, toDecimal,
    ← String.toList_inj, String.toList_ofList]

/-- The text is that of the value, whatever is in storage. -/
theorem Denotes.toDecimal_eq {y : Integer} (hx : x.Denotes i) (hy : y.Denotes i) :
    x.toDecimal = y.toDecimal :=
  hy.isCanonical_ten_iff.mp (hx.isCanonical_ten_iff.mpr rfl)

/-! ## The round trip -/

/-- Exactly the decimal numerals are read, each with its value, and a text that
is none is an error of the text.  A canonical integer is written as the
canonical numeral of its value, so what is written is read back, and what was
read is written in canonical form. -/
theorem decimal_round_trip (s : String) (hx : x.Canonical) :
    Reads (ofDecimal s) (IsDecimal s.toList) ∧
    (∀ t : String, IsCanonical 10 t.toList x.toInt ↔ t = x.toDecimal) ∧
    (∃ y, ofDecimal x.toDecimal = .ok y ∧ y.equals x = true) ∧
    ∀ y i, ofDecimal s = .ok y → IsDecimal s.toList i →
      IsCanonical 10 y.toDecimal.toList i := by
  refine ⟨ofDecimal_reads s, fun t => hx.denotes.isCanonical_ten_iff, ?_, ?_⟩
  · have hcanonical := hx.denotes.isCanonical_ten_iff.mpr rfl
    obtain ⟨y, hy, hi⟩ := (ofDecimal_reads x.toDecimal).ok _ hcanonical.signed
    exact ⟨y, hy, (hi.equals_iff hx.denotes).mpr rfl⟩
  · intro y i hy hdecimal
    obtain ⟨z, hz, hi⟩ := (ofDecimal_reads s).ok i hdecimal
    cases Except.ok.inj (hz.symm.trans hy)
    exact hi.isCanonical_ten_iff.mpr rfl

/-- Zeros in front are read and not written, and reserved places are not seen. -/
theorem decimal_round_trip_reserved :
    (⟨true, [5, 1, 0]⟩ : Integer).Canonical ∧
      (⟨true, [5, 1, 0]⟩ : Integer).toDecimal = "-1073741829" ∧
      (∃ y, ofDecimal "-1073741829" = .ok y ∧ y.equals ⟨true, [5, 1, 0]⟩ = true) ∧
      IsDecimal "-0012".toList (-12) ∧
      ∃ y, ofDecimal "-0012" = .ok y ∧ IsCanonical 10 y.toDecimal.toList (-12) := by
  have hx : (⟨true, [5, 1, 0]⟩ : Integer).Canonical := ⟨by simp [Digits.base], fun _ => rfl⟩
  have hwrite : (⟨true, [5, 1, 0]⟩ : Integer).toDecimal = "-1073741829" := by decide +kernel
  have hzero : IsFigure 10 '0' 0 := by simp [IsFigure, upperFigures]
  have hone : IsFigure 10 '1' 1 := by simp [IsFigure, upperFigures]
  have htwo : IsFigure 10 '2' 2 := by simp [IsFigure, upperFigures]
  have hnumeral : IsDecimal "-0012".toList (-12) :=
    .minus ((((Figures.single hzero).append hzero).append hone).append htwo)
  obtain ⟨hread, -, hback, hform⟩ := decimal_round_trip "-0012" hx
  obtain ⟨y, hy, -⟩ := hread.ok (-12) hnumeral
  exact ⟨hx, hwrite, hwrite ▸ hback, hnumeral, y, hy, hform y (-12) hy hnumeral⟩

end Multiprecision.Integer
