import Mathlib
import Multiprecision.Digits.Product.Words
import Multiprecision.Proofs.Product.Factors

/-!
# Multiprecision.Proofs.Product.Schoolbook

Schoolbook products and squares in words:

* `accumulate_checks`, `productColumns_checks`, `squareColumns_checks` — the
  checked passes follow those over numbers, and stop where a word does not fit;
* `product_isSome_iff`, `square_isSome_iff` — so they return just where all
  their words fit;
* `product_eq_square` — the square has the same digits in the same places as
  the product of equal operands.
-/

namespace Multiprecision.Digits

variable {α β γ δ : Type} {r : α → β → Prop} {s : γ → δ → Prop}

/-! ## Checked words beside numbers -/

/-- The checked computation `x` follows `y`: it returns just if every number
that `y` forms fits a double word, and its result is that of `y`. -/
def Checks (r : α → β → Prop) : Option α → Formed β → Prop
  | some a, y => (∀ w ∈ y.words, w < 2 ^ 64) ∧ r a y.result
  | none, y => ∃ w ∈ y.words, 2 ^ 64 ≤ w

/-- Checked computations one after the other follow what they follow in turn. -/
theorem Checks.bind {x : Option α} {y : Formed β} {f : α → Option γ} {g : β → Formed δ}
    (hx : Checks r x y) (hf : ∀ a b, r a b → Checks s (f a) (g b)) :
    Checks s (x >>= f) (y >>= g) := by
  cases x with
  | none =>
    obtain ⟨w, hw, hlarge⟩ := hx
    exact ⟨w, List.mem_append_left _ hw, hlarge⟩
  | some a =>
    obtain ⟨hwords, hr⟩ := hx
    have hrest := hf a y.result hr
    change Checks s (f a) ⟨(g y.result).result, y.words ++ (g y.result).words⟩
    cases hfa : f a with
    | none =>
      rw [hfa] at hrest
      obtain ⟨w, hw, hlarge⟩ := hrest
      exact ⟨w, List.mem_append_right _ hw, hlarge⟩
    | some c =>
      rw [hfa] at hrest
      refine ⟨fun w hw => ?_, hrest.2⟩
      cases List.mem_append.mp hw with
      | inl hw => exact hwords w hw
      | inr hw => exact hrest.1 w hw

theorem checks_pure {a : α} {b : β} (h : r a b) : Checks r (some a) (pure b) :=
  ⟨fun _ hw => absurd hw List.not_mem_nil, h⟩

/-- A number that fits a double word may be formed. -/
theorem checks_form {a : α} {n : Nat} {r : α → Nat → Prop} (hn : n < 2 ^ 64) (h : r a n) :
    Checks r (some a) (form n) := by
  refine ⟨fun w hw => ?_, h⟩
  rw [List.mem_singleton.mp hw]
  exact hn

/-- A number that always fits is not checked for. -/
theorem Checks.form {n : Nat} (hn : n < 2 ^ 64) {x : Option α} {g : Nat → Formed β}
    (h : Checks r x (g n)) : Checks r x (form n >>= g) := by
  have hone : Checks (fun (_ : Unit) m => m = n) (some ()) (Digits.form n) := checks_form hn rfl
  exact hone.bind (f := fun _ => x) fun _ m hm => hm ▸ h

/-- What is made of a result forms no words. -/
theorem Checks.map {x : Option α} {y : Formed β} (h : Checks r x y) {f : α → γ}
    {s : γ → β → Prop} (hf : ∀ a b, r a b → s (f a) b) :
    Checks s (x >>= fun a => some (f a)) y := by
  cases x with
  | none => exact h
  | some a => exact ⟨h.1, hf a y.result h.2⟩

/-- The sum of two double words is formed as one number. -/
theorem checks_addWide {a b : UInt64} {n : Nat} (hn : a.toNat + b.toNat = n) :
    Checks (fun w m => w.toNat = m) (addWide a b) (form n) := by
  by_cases hfits : n < 2 ^ 64
  · obtain ⟨w, hw, hvalue⟩ := addWide_of_lt (hn ▸ hfits)
    rw [hw]
    exact checks_form hfits (hvalue.trans hn)
  · cases hw : addWide a b with
    | none => exact ⟨n, List.mem_singleton_self n, not_lt.mp hfits⟩
    | some w =>
      have hvalue := toNat_addWide hw
      have hlt := w.toNat_lt
      omega

/-- A checked computation returns just if all the words that it follows fit. -/
theorem Checks.isSome_iff {x : Option α} {y : Formed β} (h : Checks r x y) :
    (∃ a, x = some a) ↔ ∀ w ∈ y.words, w < 2 ^ 64 := by
  cases x with
  | none =>
    obtain ⟨w, hw, hlarge⟩ := h
    simpa using ⟨w, hw, hlarge⟩
  | some a => simpa using h.1

/-! ## Columns -/

/-- The two sums of a column are formed word by word. -/
theorem accumulate_checks {as bs : List Digit} (ha : InRange as) (hb : InRange bs)
    (low high : UInt64) :
    Checks (fun w m => w.1.toNat = m.1 ∧ w.2.toNat = m.2) (accumulate as bs low high)
      (formColumn as bs low.toNat high.toNat) := by
  induction as generalizing bs low high with
  | nil => exact checks_pure ⟨rfl, rfl⟩
  | cons a as ih =>
    cases bs with
    | nil => exact checks_pure ⟨rfl, rfl⟩
    | cons b bs =>
      obtain ⟨ha0, has⟩ := inRange_cons.mp ha
      obtain ⟨hb0, hbs⟩ := inRange_cons.mp hb
      have hproduct : a.toNat * b.toNat < 2 ^ 64 := (mul_digits_le ha0 hb0).trans_lt (by decide)
      unfold accumulate formColumn
      apply Checks.form hproduct
      apply (checks_addWide (by rw [toNat_mul_digits ha0 hb0])).bind
      intro sum n hsum
      subst hsum
      by_cases hfold : foldLimit ≤ sum
      · rw [if_pos hfold, if_pos (UInt64.le_iff_toNat_le.mp hfold), ← toNat_and_wideMask]
        apply (checks_addWide (by rw [toNat_wide_shiftRight_width])).bind
        intro up m hup
        subst hup
        exact ih has hbs _ _
      · rw [if_neg hfold, if_neg (mt UInt64.le_iff_toNat_le.mpr hfold)]
        exact ih has hbs _ _

/-- The columns of a product form all numbers that the words stand for. -/
theorem productColumns_checks {as rev : List Digit} (ha : InRange as) (hrev : InRange rev)
    (n c todo : Nat) (carry : UInt64) :
    Checks (fun _ _ => True) (productColumns as rev n c todo carry)
      (formProductColumns as rev n c todo carry.toNat) := by
  induction todo generalizing c carry with
  | zero => exact checks_pure trivial
  | succ todo ih =>
    unfold productColumns formProductColumns productColumn
    apply (accumulate_checks (ha.drop _) (hrev.drop _) carry 0).bind
    rintro ⟨low, high⟩ ⟨m, n⟩ ⟨hlow, hhigh⟩
    subst hlow hhigh
    apply (checks_addWide (by rw [toNat_wide_shiftRight_width])).bind
    intro out k hout
    subst hout
    exact (ih (c + 1) out).map fun _ _ _ => trivial

/-- The middle term of a column of a square fits its word. -/
theorem toNat_diagonal_eq_middle {ds : List Digit} (h : InRange ds) (c : Nat) :
    (diagonal ds c).toNat = middle ds c := by
  have hd := headD_drop_lt h (c / 2)
  unfold diagonal middle
  split
  · exact toNat_mul_digits hd hd
  · rfl

/-- Twice the low part of a column. -/
theorem toNat_twice (low : UInt64) :
    ((low &&& wideMask) + (low &&& wideMask)).toNat = 2 * (low.toNat % base) := by
  have hlt := mod_base_lt low.toNat
  have hbase : base = 1073741824 := rfl
  rw [UInt64.toNat_add, toNat_and_wideMask]
  omega

/-- The columns of a square form all numbers that the words stand for. -/
theorem squareColumns_checks {ds rev : List Digit} (h : InRange ds) (hrev : InRange rev)
    (n c todo : Nat) (carry : UInt64) :
    Checks (fun _ _ => True) (squareColumns ds rev n c todo carry)
      (formSquareColumns ds rev n c todo carry.toNat) := by
  induction todo generalizing c carry with
  | zero => exact checks_pure trivial
  | succ todo ih =>
    have hmiddle : middle ds c < 2 ^ 64 := by
      rw [← toNat_diagonal_eq_middle h]
      exact UInt64.toNat_lt _
    unfold squareColumns formSquareColumns squareColumn
    apply (accumulate_checks ((h.drop _).take _) (hrev.drop _) 0 0).bind
    rintro ⟨low, high⟩ ⟨m, n⟩ ⟨hlow, hhigh⟩
    subst hlow hhigh
    have htwice : 2 * (low.toNat % base) < 2 ^ 64 := toNat_twice low ▸ UInt64.toNat_lt _
    apply (checks_addWide (by rw [toNat_wide_shiftRight_width])).bind
    intro high' k hhigh
    subst hhigh
    apply Checks.form hmiddle
    apply (checks_addWide (by rw [toNat_diagonal_eq_middle h])).bind
    intro start k hstart
    subst hstart
    apply Checks.form htwice
    apply (checks_addWide (by rw [toNat_twice])).bind
    intro total k htotal
    subst htotal
    apply (checks_addWide (Nat.two_mul _).symm).bind
    intro up k hup
    subst hup
    apply (checks_addWide (by rw [toNat_wide_shiftRight_width])).bind
    intro out k hout
    subst hout
    exact (ih (c + 1) out).map fun _ _ _ => trivial

/-- A product is returned just if all its words fit. -/
theorem product_isSome_iff {as bs : List Digit} (ha : InRange as) (hb : InRange bs) :
    (∃ ds, product as bs = some ds) ↔ ∀ w ∈ productWords as bs, w < 2 ^ 64 := by
  unfold product productWords
  by_cases hempty : (as.isEmpty || bs.isEmpty) = true
  · simp [hempty]
  · rw [if_neg hempty, if_neg hempty]
    have hcolumns := productColumns_checks ha hb.reverse bs.length 0 (as.length + bs.length - 1) 0
    exact (hcolumns.map (s := fun _ _ => True) fun _ _ _ => trivial).isSome_iff

/-- A square is returned just if all its words fit. -/
theorem square_isSome_iff {ds : List Digit} (h : InRange ds) :
    (∃ es, square ds = some es) ↔ ∀ w ∈ squareWords ds, w < 2 ^ 64 := by
  unfold square squareWords
  by_cases hempty : ds.isEmpty = true
  · simp [hempty]
  · rw [if_neg hempty, if_neg hempty]
    have hcolumns := squareColumns_checks h h.reverse ds.length 0 (2 * ds.length - 1) 0
    exact (hcolumns.map (s := fun _ _ => True) fun _ _ _ => trivial).isSome_iff

/-! ## The places of a result -/

/-- Digits in range are determined by their value and their number. -/
theorem eq_of_value_eq {as bs : List Digit} (ha : InRange as) (hb : InRange bs)
    (hlen : as.length = bs.length) (hvalue : value as = value bs) : as = bs := by
  induction as generalizing bs with
  | nil => simpa [eq_comm] using hlen
  | cons a as ih =>
    cases bs with
    | nil => simp at hlen
    | cons b bs =>
      obtain ⟨ha0, has⟩ := inRange_cons.mp ha
      obtain ⟨hb0, hbs⟩ := inRange_cons.mp hb
      rw [value_cons, value_cons] at hvalue
      have hlow := congrArg (· % base) hvalue
      have hhigh := congrArg (· / base) hvalue
      simp only [Nat.add_mul_mod_self_left, Nat.mod_eq_of_lt ha0, Nat.mod_eq_of_lt hb0] at hlow
      simp only [Nat.add_mul_div_left _ _ base_pos, Nat.div_eq_of_lt ha0, Nat.div_eq_of_lt hb0,
        Nat.zero_add] at hhigh
      rw [UInt32.toNat_inj.mp hlow, ih has hbs (by simpa using hlen) hhigh]

/-- Columns that are followed by the digits of the last carry. -/
def Carried (n : Nat) (ds : List Digit) : Prop :=
  ∃ front carry, front.length = n ∧ ds = front ++ ofNat carry

theorem Carried.cons {n : Nat} {ds : List Digit} (h : Carried n ds) (d : Digit) :
    Carried (n + 1) (d :: ds) := by
  obtain ⟨front, carry, hlen, hds⟩ := h
  exact ⟨d :: front, carry, by simp [hlen], by simp [hds]⟩

/-- The last carry of a number below `base ^ n` has one digit at most, so no place
is opened past the `n`-th. -/
theorem Carried.length_padTo {n : Nat} {ds : List Digit} (h : Carried (n - 1) ds) (hn : 0 < n)
    (hvalue : value ds < base ^ n) : (padTo n ds).length = n := by
  obtain ⟨front, carry, hlen, hds⟩ := h
  subst hds
  have hpow : base ^ n = base ^ (n - 1) * base := by rw [← pow_succ, Nat.sub_add_cancel hn]
  rw [value_append, value_ofNat, hlen, hpow] at hvalue
  have hcarry : carry < base := by
    apply Nat.lt_of_mul_lt_mul_left (a := base ^ (n - 1))
    omega
  have hone : (ofNat carry).length ≤ 1 := by
    unfold ofNat
    by_cases hzero : carry = 0
    · simp [hzero]
    · rw [if_neg hzero, Nat.div_eq_of_lt hcarry]
      simp [ofNat]
  rw [Digits.length_padTo, List.length_append, hlen]
  omega

/-- A product has the digits of its columns, and then those of the last carry. -/
theorem carried_productColumns {as rev ds : List Digit} {n c todo : Nat} {carry : UInt64}
    (hsome : productColumns as rev n c todo carry = some ds) : Carried todo ds := by
  induction todo generalizing c carry ds with
  | zero => exact ⟨[], carry.toNat, rfl, (Option.some.inj hsome).symm⟩
  | succ todo ih =>
    obtain ⟨⟨low, high⟩, -, hrest⟩ := Option.bind_eq_some_iff.mp hsome
    obtain ⟨out, -, hrest⟩ := Option.bind_eq_some_iff.mp hrest
    obtain ⟨es, hes, hds⟩ := Option.bind_eq_some_iff.mp hrest
    exact Option.some.inj hds ▸ (ih hes).cons _

theorem carried_squareColumns {ds rev es : List Digit} {n c todo : Nat} {carry : UInt64}
    (hsome : squareColumns ds rev n c todo carry = some es) : Carried todo es := by
  induction todo generalizing c carry es with
  | zero => exact ⟨[], carry.toNat, rfl, (Option.some.inj hsome).symm⟩
  | succ todo ih =>
    obtain ⟨⟨low, high⟩, -, hrest⟩ := Option.bind_eq_some_iff.mp hsome
    obtain ⟨high', -, hrest⟩ := Option.bind_eq_some_iff.mp hrest
    obtain ⟨start, -, hrest⟩ := Option.bind_eq_some_iff.mp hrest
    obtain ⟨total, -, hrest⟩ := Option.bind_eq_some_iff.mp hrest
    obtain ⟨up, -, hrest⟩ := Option.bind_eq_some_iff.mp hrest
    obtain ⟨out, -, hrest⟩ := Option.bind_eq_some_iff.mp hrest
    obtain ⟨rest, hrest, hes⟩ := Option.bind_eq_some_iff.mp hrest
    exact Option.some.inj hes ▸ (ih hrest).cons _

/-- A product has as many places as both operands together. -/
theorem length_product {as bs ds : List Digit} (ha : InRange as) (hb : InRange bs)
    (has : as ≠ []) (hbs : bs ≠ []) (hsome : product as bs = some ds) :
    ds.length = as.length + bs.length := by
  have hvalue := (value_product ha hb hsome).1
  have hpos := List.length_pos_iff.mpr has
  rw [product, if_neg (by simp [has, hbs])] at hsome
  obtain ⟨es, hes, hds⟩ := Option.bind_eq_some_iff.mp hsome
  obtain rfl : padTo (as.length + bs.length) es = ds := Option.some.inj hds
  rw [value_padTo] at hvalue
  apply (carried_productColumns hes).length_padTo (by omega)
  rw [hvalue, pow_add]
  exact Nat.mul_lt_mul'' (value_lt ha) (value_lt hb)

/-- A square has twice as many places as its operand. -/
theorem length_square {ds es : List Digit} (h : InRange ds) (hne : ds ≠ [])
    (hsome : square ds = some es) : es.length = 2 * ds.length := by
  have hvalue := (value_square h hsome).1
  have hpos := List.length_pos_iff.mpr hne
  rw [square, if_neg (by simp [hne])] at hsome
  obtain ⟨rest, hrest, hes⟩ := Option.bind_eq_some_iff.mp hsome
  obtain rfl : padTo (2 * ds.length) rest = es := Option.some.inj hes
  rw [value_padTo] at hvalue
  apply (carried_squareColumns hrest).length_padTo (by omega)
  rw [hvalue, Nat.two_mul, pow_add]
  exact Nat.mul_lt_mul'' (value_lt h) (value_lt h)

/-- The square is the product of equal operands, digit for digit. -/
theorem product_eq_square {ds : List Digit} (h : InRange ds) (hlen : ds.length ≤ maxTerms) :
    product ds ds = square ds := by
  by_cases hne : ds = []
  · simp [hne, product, square]
  · obtain ⟨ps, hps⟩ := product_isSome h h ((min_le_left _ _).trans hlen)
    obtain ⟨ss, hss⟩ := square_isSome h hlen
    have hproduct := value_product h h hps
    have hsquare := value_square h hss
    have hlength : ps.length = ss.length := by
      rw [length_product h h hne hne hps, length_square h hne hss, Nat.two_mul]
    rw [hps, hss, eq_of_value_eq hproduct.2 hsquare.2 hlength (hproduct.1.trans hsquare.1.symm)]

end Multiprecision.Digits

namespace Multiprecision.Integer

variable {x y : Integer} {i j : Int}

/-- Schoolbook products and squares are those of the absolute values, whatever
they are written over, for an operand of at most `2^33` significant digits; the
other operand of a product may be longer.  No double word that they form reaches
`2^64`, and the square is the product with an equal operand, digit for digit. -/
theorem schoolbook_exact (hx : x.Denotes i) (hy : y.Denotes j) (hlen : x.digitCount ≤ 2 ^ 33)
    (into : Integer) :
    (∃ p, mulGradeSchool x y into = .value p ∧ p.Denotes (|i| * |j|)) ∧
    (∃ s, squareGradeSchool x into = .value s ∧ s.Denotes (|i| ^ 2)) ∧
    (∀ w ∈ Digits.productWords x.significant y.significant, w < 2 ^ 64) ∧
    (∀ w ∈ Digits.squareWords x.significant, w < 2 ^ 64) ∧
    (|i| = |j| → mulGradeSchool x y into = squareGradeSchool x into) := by
  obtain ⟨hxr, -⟩ := hx.significant
  obtain ⟨hyr, -⟩ := hy.significant
  have hmin : min x.digitCount y.digitCount ≤ Digits.maxTerms := (min_le_left _ _).trans hlen
  have hproduct := Outcome.yields_returning.mp
    (mulGradeSchool_yields hx hy (.inr hmin) into)
  have hsquare := Outcome.yields_returning.mp
    (squareGradeSchool_yields hx (.inr hlen) into)
  refine ⟨?_, ?_, ?_, ?_, fun heq => ?_⟩
  · rwa [Int.abs_eq_natAbs, Int.abs_eq_natAbs, ← Nat.cast_mul]
  · rwa [Int.abs_eq_natAbs, pow_two, ← Nat.cast_mul]
  · exact (Digits.product_isSome_iff hxr hyr).mp (Digits.product_isSome hxr hyr hmin)
  · exact (Digits.square_isSome_iff hxr).mp (Digits.square_isSome hxr hlen)
  · have hsame : y.significant = x.significant := by
      rw [Int.abs_eq_natAbs, Int.abs_eq_natAbs, Int.natCast_inj] at heq
      rw [hx.significant_eq, hy.significant_eq, heq]
    rw [mulGradeSchool, squareGradeSchool, hsame, Digits.product_eq_square hxr hlen]

/-- Two operands of ones in every bit and with unlike signs and reserved places,
written over digits that are longer than the product. -/
theorem schoolbook_exact_all_ones :
    Denotes ⟨true, [0x3FFFFFFF, 0x3FFFFFFF, 0]⟩ (-(2 ^ 60 - 1)) ∧
    Denotes ⟨false, [0x3FFFFFFF, 0x3FFFFFFF]⟩ (2 ^ 60 - 1) ∧
    mulGradeSchool ⟨true, [0x3FFFFFFF, 0x3FFFFFFF, 0]⟩ ⟨false, [0x3FFFFFFF, 0x3FFFFFFF]⟩
        ⟨true, [1, 2, 3, 4, 5]⟩ = .value ⟨false, [1, 0, 0x3FFFFFFE, 0x3FFFFFFF, 0]⟩ ∧
    Denotes ⟨false, [1, 0, 0x3FFFFFFE, 0x3FFFFFFF, 0]⟩ ((2 ^ 60 - 1) * (2 ^ 60 - 1)) ∧
    (∀ w ∈ Digits.productWords [0x3FFFFFFF, 0x3FFFFFFF] [0x3FFFFFFF, 0x3FFFFFFF], w < 2 ^ 64) ∧
    squareGradeSchool ⟨true, [0x3FFFFFFF, 0x3FFFFFFF, 0]⟩ ⟨true, [1, 2, 3, 4, 5]⟩ =
      .value ⟨false, [1, 0, 0x3FFFFFFE, 0x3FFFFFFF, 0]⟩ := by
  have hx : Denotes ⟨true, [0x3FFFFFFF, 0x3FFFFFFF, 0]⟩ (-(2 ^ 60 - 1)) :=
    ⟨by simp [Canonical, Digits.base, Digits.isZero], by decide⟩
  have hy : Denotes ⟨false, [0x3FFFFFFF, 0x3FFFFFFF]⟩ (2 ^ 60 - 1) :=
    ⟨by simp [Canonical, Digits.base], by decide⟩
  obtain ⟨⟨p, hp, hvalue⟩, -, hwords, -, hsame⟩ :=
    schoolbook_exact hx hy (by decide) ⟨true, [1, 2, 3, 4, 5]⟩
  have hrun : mulGradeSchool ⟨true, [0x3FFFFFFF, 0x3FFFFFFF, 0]⟩ ⟨false, [0x3FFFFFFF, 0x3FFFFFFF]⟩
      ⟨true, [1, 2, 3, 4, 5]⟩ = .value ⟨false, [1, 0, 0x3FFFFFFE, 0x3FFFFFFF, 0]⟩ := by
    decide +kernel
  have hresult := hsame (by decide)
  rw [hrun] at hp hresult
  obtain rfl := Outcome.value.inj hp
  exact ⟨hx, hy, hrun, hvalue, hwords, hresult.symm⟩

end Multiprecision.Integer
