import Mathlib
import Multiprecision.Proofs.Integer.Checked

/-!
# Multiprecision.Proofs.Integer.Group

Canonical integers that compare equal are one *value*, whatever places they
have in reserve.  Sums, differences and the change of sign are operations on
values, and with them the values are the additive group of the integers:
`Value.equivInt`.

`sums_exact` puts this beside what each operation does: it returns, with no
word that overflows and no borrow left over, and its result is the sum or the
difference.
-/

namespace Multiprecision.Integer

variable {x y : Integer} {i j : Int}

/-! ## Values -/

/-- Canonical integers are equal exactly if their values are. -/
theorem Canonical.equals_iff (hx : x.Canonical) (hy : y.Canonical) :
    x.equals y = true ↔ x.toInt = y.toInt :=
  hx.denotes.equals_iff hy.denotes

/-- Canonical integers that compare equal. -/
instance sameValue : Setoid {x : Integer // x.Canonical} where
  r x y := x.1.equals y.1 = true
  iseqv := by
    constructor
    · intro x
      exact (x.2.equals_iff x.2).mpr rfl
    · intro x y h
      exact (y.2.equals_iff x.2).mpr ((x.2.equals_iff y.2).mp h).symm
    · intro x y z hxy hyz
      exact (x.2.equals_iff z.2).mpr
        (((x.2.equals_iff y.2).mp hxy).trans ((y.2.equals_iff z.2).mp hyz))

/-- An integer up to the places that it has in reserve. -/
def Value : Type := Quotient sameValue

namespace Value

/-- The value of a canonical integer. -/
def of (x : Integer) (hx : x.Canonical) : Value := Quotient.mk sameValue ⟨x, hx⟩

/-- The number that a value is. -/
def toInt : Value → Int :=
  Quotient.lift (fun x => x.1.toInt) fun x y h => (x.2.equals_iff y.2).mp h

@[simp] theorem toInt_of (hx : x.Canonical) : (of x hx).toInt = x.toInt := rfl

/-- Every value is that of some canonical integer. -/
theorem exists_of (a : Value) : ∃ x, ∃ hx : x.Canonical, of x hx = a := by
  obtain ⟨x, rfl⟩ := Quotient.exists_rep a
  exact ⟨x.1, x.2, rfl⟩

/-- A value is known by its integer. -/
theorem toInt_injective : Function.Injective toInt := by
  intro a b h
  obtain ⟨x, hx, rfl⟩ := exists_of a
  obtain ⟨y, hy, rfl⟩ := exists_of b
  exact Quotient.sound ((hx.equals_iff hy).mpr h)

/-- Every integer is a value. -/
theorem toInt_surjective : Function.Surjective toInt := by
  intro i
  exact ⟨of (ofInt i) (denotes_ofInt i).canonical, (denotes_ofInt i).toInt⟩

/-! ## Operations -/

/-- An operation on integers whose result depends on the value alone. -/
def lift (op : Integer → Integer) (f : Int → Int)
    (hop : ∀ {x i}, x.Denotes i → (op x).Denotes (f i)) : Value → Value :=
  Quotient.map (fun x => ⟨op x.1, (hop x.2.denotes).canonical⟩) (by
    intro x x' hx
    have hvalue := hop x.2.denotes
    rw [(x.2.equals_iff x'.2).mp hx] at hvalue
    exact (hvalue.equals_iff (hop x'.2.denotes)).mpr rfl)

/-- An operation on two integers whose result depends on their values alone. -/
def lift₂ (op : Integer → Integer → Integer) (f : Int → Int → Int)
    (hop : ∀ {x y i j}, x.Denotes i → y.Denotes j → (op x y).Denotes (f i j)) :
    Value → Value → Value :=
  Quotient.map₂ (fun x y => ⟨op x.1 y.1, (hop x.2.denotes y.2.denotes).canonical⟩) (by
    intro x x' hx y y' hy
    have hvalue := hop x.2.denotes y.2.denotes
    rw [(x.2.equals_iff x'.2).mp hx, (y.2.equals_iff y'.2).mp hy] at hvalue
    exact (hvalue.equals_iff (hop x'.2.denotes y'.2.denotes)).mpr rfl)

/-- An operation on integers that respects values is one on values. -/
theorem toInt_lift (op : Integer → Integer) (f : Int → Int)
    (hop : ∀ {x i}, x.Denotes i → (op x).Denotes (f i)) (a : Value) :
    (lift op f hop a).toInt = f a.toInt := by
  obtain ⟨x, hx, rfl⟩ := exists_of a
  exact (hop hx.denotes).toInt

/-- The same for operations with two operands. -/
theorem toInt_lift₂ (op : Integer → Integer → Integer) (f : Int → Int → Int)
    (hop : ∀ {x y i j}, x.Denotes i → y.Denotes j → (op x y).Denotes (f i j)) (a b : Value) :
    (lift₂ op f hop a b).toInt = f a.toInt b.toInt := by
  obtain ⟨x, hx, rfl⟩ := exists_of a
  obtain ⟨y, hy, rfl⟩ := exists_of b
  exact (hop hx.denotes hy.denotes).toInt

instance : Zero Value := ⟨of zero denotes_zero.canonical⟩

instance : Add Value := ⟨lift₂ Integer.add (· + ·) Denotes.add⟩

instance : Sub Value := ⟨lift₂ Integer.sub (· - ·) Denotes.sub⟩

instance : Neg Value := ⟨lift Integer.neg (- ·) Denotes.neg⟩

@[simp] theorem toInt_zero : (0 : Value).toInt = 0 := denotes_zero.toInt

/-- Sums of values are sums of integers. -/
@[simp] theorem toInt_add (a b : Value) : (a + b).toInt = a.toInt + b.toInt :=
  toInt_lift₂ Integer.add (· + ·) Denotes.add a b

@[simp] theorem toInt_sub (a b : Value) : (a - b).toInt = a.toInt - b.toInt :=
  toInt_lift₂ Integer.sub (· - ·) Denotes.sub a b

@[simp] theorem toInt_neg (a : Value) : (-a).toInt = -a.toInt :=
  toInt_lift Integer.neg (- ·) Denotes.neg a

instance : AddCommGroup Value where
  add_assoc a b c := toInt_injective (by simp [add_assoc])
  zero_add a := toInt_injective (by simp)
  add_zero a := toInt_injective (by simp)
  add_comm a b := toInt_injective (by simp [add_comm])
  neg_add_cancel a := toInt_injective (by simp)
  sub_eq_add_neg a b := toInt_injective (by simp [sub_eq_add_neg])
  nsmul := nsmulRec
  zsmul := zsmulRec

/-- The values are the integers, with their sums. -/
noncomputable def equivInt : Value ≃+ Int :=
  { Equiv.ofBijective toInt ⟨toInt_injective, toInt_surjective⟩ with map_add' := toInt_add }

end Value

/-! ## Exact sums -/

/-- On canonical integers, with any places in reserve, sums and differences in
place are exact and canonical, no word that they form overflows, and a
difference of magnitudes leaves no borrow.  So they make the values the additive
group of the integers. -/
theorem sums_exact (hx : x.Denotes i) (hy : y.Denotes j) :
    (x.add? y = some (x.add y) ∧ (x.add y).Denotes (i + j)) ∧
    (x.sub? y = some (x.sub y) ∧ (x.sub y).Denotes (i - j)) ∧
    (x.subFrom? y = some (x.subFrom y) ∧ (x.subFrom y).Denotes (j - i)) ∧
    ((x.add y).sub y).equals x = true ∧
    ∃ e : Value ≃+ Int, (∀ z hz, e (.of z hz) = z.toInt) ∧ (∀ a, e (-a) = -e a) ∧
      ∀ a b, e (a - b) = e a - e b := by
  refine ⟨⟨hx.add?_eq hy, hx.add hy⟩, ⟨hx.sub?_eq hy, hx.sub hy⟩,
    ⟨hx.subFrom?_eq hy, hx.subFrom hy⟩, ?_, Value.equivInt, fun z hz => rfl, Value.toInt_neg,
    Value.toInt_sub⟩
  exact (((hx.add hy).sub hy).equals_iff hx).mpr (by omega)

/-- A borrow goes through every digit of the smaller magnitude, and the sign of
the sum is that of the other operand; both have places in reserve. -/
theorem sums_exact_unlike_signs :
    Denotes ⟨true, [1, 0x3FFFFFFF, 0]⟩ (-(2 ^ 60 - 2 ^ 30 + 1)) ∧
    Denotes ⟨false, [0, 0, 1, 0]⟩ (2 ^ 60) ∧
    add? ⟨true, [1, 0x3FFFFFFF, 0]⟩ ⟨false, [0, 0, 1, 0]⟩ =
      some ⟨false, [0x3FFFFFFF, 0, 0]⟩ ∧
    Denotes ⟨false, [0x3FFFFFFF, 0, 0]⟩ (-(2 ^ 60 - 2 ^ 30 + 1) + 2 ^ 60) ∧
    Integer.equals (Integer.sub ⟨false, [0x3FFFFFFF, 0, 0]⟩ ⟨false, [0, 0, 1, 0]⟩)
      ⟨true, [1, 0x3FFFFFFF, 0]⟩ = true := by
  have hx : Denotes ⟨true, [1, 0x3FFFFFFF, 0]⟩ (-(2 ^ 60 - 2 ^ 30 + 1)) :=
    ⟨by simp [Canonical, Digits.base, Digits.isZero], by decide⟩
  have hy : Denotes ⟨false, [0, 0, 1, 0]⟩ (2 ^ 60) :=
    ⟨by simp [Canonical, Digits.base], by decide⟩
  obtain ⟨⟨hadd, hsum⟩, -, -, hback, -⟩ := sums_exact hx hy
  have hrun : Integer.add ⟨true, [1, 0x3FFFFFFF, 0]⟩ ⟨false, [0, 0, 1, 0]⟩ =
      ⟨false, [0x3FFFFFFF, 0, 0]⟩ := by decide +kernel
  rw [hrun] at hadd hsum hback
  exact ⟨hx, hy, hadd, hsum, hback⟩

end Multiprecision.Integer
