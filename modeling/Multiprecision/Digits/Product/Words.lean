import Multiprecision.Digits.Product

/-!
# Multiprecision.Digits.Product.Words

The double words of schoolbook products and squares, as numbers.  The passes
here go over the same columns as those of `Multiprecision.Digits.Product`, but
their sums are numbers, which have room for everything.  Each sum is noted:

* the product of two digits, and the column once it is added;
* what is moved out of a column, with what was moved before;
* the carry out of a column, and in a square the parts of it that count twice.

So they say of any two operands how wide the words of a product have to be.
-/

namespace Multiprecision.Digits

/-- A result, and the numbers formed on the way to it. -/
structure Formed (α : Type) where
  result : α
  words : List Nat
deriving Repr

namespace Formed

instance : Monad Formed where
  pure a := ⟨a, []⟩
  bind x f := ⟨(f x.result).result, x.words ++ (f x.result).words⟩

end Formed

/-- Notes a number. -/
def form (n : Nat) : Formed Nat := ⟨n, [n]⟩

/-- Adds the products of the paired digits to the column `low + base·high`. -/
def formColumn : List Digit → List Digit → (low high : Nat) → Formed (Nat × Nat)
  | a :: as, b :: bs, low, high => do
    let product ← form (a.toNat * b.toNat)
    let sum ← form (low + product)
    if foldLimit.toNat ≤ sum then
      formColumn as bs (sum % base) (← form (high + sum / base))
    else formColumn as bs sum high
  | [], _, low, high => pure (low, high)
  | _ :: _, [], low, high => pure (low, high)

/-! ## Product -/

/-- The columns from `c` on, `todo` of them; `rev` is the reversed list of the
`n` digits that are read downwards. -/
def formProductColumns (as rev : List Digit) (n : Nat) :
    (c todo : Nat) → (carry : Nat) → Formed Unit
  | _, 0, _ => pure ()
  | c, todo + 1, carry => do
    let column ← formColumn (as.drop (c + 1 - n)) (rev.drop (n - 1 - c)) carry 0
    formProductColumns as rev n (c + 1) todo (← form (column.1 / base + column.2))

/-- The double words of a product. -/
def productWords (as bs : List Digit) : List Nat :=
  if as.isEmpty || bs.isEmpty then []
  else (formProductColumns as bs.reverse bs.length 0 (as.length + bs.length - 1) 0).words

/-! ## Square -/

/-- The square of the middle digit of an even column, as a number. -/
def middle (ds : List Digit) (c : Nat) : Nat :=
  if c % 2 = 0 then
    let d := (ds.drop (c / 2)).headD 0
    d.toNat * d.toNat
  else 0

/-- The columns from `c` on, `todo` of them. -/
def formSquareColumns (ds rev : List Digit) (n : Nat) :
    (c todo : Nat) → (carry : Nat) → Formed Unit
  | _, 0, _ => pure ()
  | c, todo + 1, carry => do
    let lo := c + 1 - n
    let column ← formColumn ((ds.drop lo).take ((c + 1 - 2 * lo) / 2)) (rev.drop (n - 1 - c)) 0 0
    let high ← form (column.2 + column.1 / base)
    let diagonal ← form (middle ds c)
    let start ← form (carry + diagonal)
    let twice ← form (2 * (column.1 % base))
    let total ← form (start + twice)
    let up ← form (2 * high)
    formSquareColumns ds rev n (c + 1) todo (← form (total / base + up))

/-- The double words of a square. -/
def squareWords (ds : List Digit) : List Nat :=
  if ds.isEmpty then []
  else (formSquareColumns ds ds.reverse ds.length 0 (2 * ds.length - 1) 0).words

end Multiprecision.Digits
