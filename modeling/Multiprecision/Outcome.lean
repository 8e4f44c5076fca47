import Multiprecision.Error

/-!
# Multiprecision.Outcome

The result of a computation that may not end.  Sub-products go back to the
choice of an algorithm, and for some thresholds that recursion has no
bottom; drawing random numbers until one fits may go on for ever.  Such a
computation is given a budget, and an outcome tells a failure of the
arithmetic from a budget that ran out.

Sums in machine words are checked where the words may be too narrow for
very long operands.  A sum that does not fit stops the whole program, so
nothing goes on after it and nothing handles it.
-/

namespace Multiprecision

/-- A value, an error, a stop at a machine word that is too narrow, or none of
these within the budget. -/
inductive Outcome (α : Type) where
  | value (a : α)
  | failure (e : Error)
  | aborted
  | exhausted
deriving DecidableEq, Repr, Inhabited

namespace Outcome

variable {α β : Type}

/-- Goes on with the value, if there is one. -/
def bind : Outcome α → (α → Outcome β) → Outcome β
  | .value a, f => f a
  | .failure e, _ => .failure e
  | .aborted, _ => .aborted
  | .exhausted, _ => .exhausted

instance : Monad Outcome where
  pure := .value
  bind := .bind

instance : MonadExceptOf Error Outcome where
  throw := .failure
  tryCatch
    | .failure e, handler => handler e
    | outcome, _ => outcome

instance : MonadLift (Except Error) Outcome where
  monadLift
    | .ok a => .value a
    | .error e => .failure e

/-- The value of a checked computation in machine words. -/
def ofChecked : Option α → Outcome α
  | some a => .value a
  | none => .aborted

@[simp] theorem pure_eq_value (a : α) : (pure a : Outcome α) = .value a := rfl

@[simp] theorem value_bind (a : α) (f : α → Outcome β) : (.value a >>= f) = f a := rfl

@[simp] theorem failure_bind (e : Error) (f : α → Outcome β) :
    (.failure e >>= f) = .failure e := rfl

@[simp] theorem aborted_bind (f : α → Outcome β) : (.aborted >>= f) = .aborted := rfl

@[simp] theorem exhausted_bind (f : α → Outcome β) : (.exhausted >>= f) = .exhausted := rfl

end Outcome

end Multiprecision
