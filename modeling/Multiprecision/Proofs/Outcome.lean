import Mathlib
import Multiprecision.Outcome

/-!
# Multiprecision.Proofs.Outcome

What an outcome is allowed to be:

* `Outcome.Yields` — a value has a property, and the other endings occur only
  where they may;
* `Yields.bind`, `Yields.mapM` — parts that yield make a whole that yields.

The same statement serves for partial correctness, where a run may end in any
way, for the absence of errors, and for termination, where running out of
budget is not allowed.
-/

namespace Multiprecision

/-! ## Computations that may raise an error -/

section Ensures

variable {α β : Type} {p : α → Prop} {q : β → Prop}

/-- A value of the computation has the property. -/
def Ensures (p : α → Prop) (x : Except Error α) : Prop := ∀ a, x = .ok a → p a

theorem ensures_ok {a : α} (h : p a) : Ensures p (.ok a) := by
  rintro _ ⟨⟩
  exact h

theorem ensures_error {e : Error} : Ensures p (.error e) := nofun

/-- What always holds is ensured by any computation. -/
theorem ensures_true (x : Except Error α) : Ensures (fun _ => True) x := fun _ _ => trivial

/-- What a result ensures is known to the computation that goes on with it. -/
theorem Ensures.bind {x : Except Error α} {f : α → Except Error β} (hx : Ensures p x)
    (hf : ∀ a, p a → Ensures q (f a)) : Ensures q (x >>= f) := by
  cases x with
  | ok a => exact hf a (hx a rfl)
  | error e => exact ensures_error

theorem Ensures.mono {p' : α → Prop} {x : Except Error α} (hx : Ensures p x)
    (h : ∀ a, p a → p' a) : Ensures p' x := fun a ha => h a (hx a ha)

end Ensures

/-! ## Outcomes -/

/-- The endings without a value that are allowed. -/
structure Endings where
  fail : Prop
  abort : Prop
  exhaust : Prop

namespace Endings

/-- A run may end in any way. -/
def any : Endings := ⟨True, True, True⟩

/-- A run may stop in a machine word or run out of its budget. -/
def unfailing : Endings := ⟨False, True, True⟩

/-- A run may stop in a machine word. -/
def abortOnly : Endings := ⟨False, True, False⟩

/-- A run ends with a value. -/
def returning : Endings := ⟨False, False, False⟩

/-- A run may run out of its budget. -/
def exhaustOnly : Endings := ⟨False, False, True⟩

end Endings

namespace Outcome

instance : LawfulMonad Outcome :=
  .mk' Outcome (fun x => by cases x <;> rfl) (fun _ _ => rfl) (fun x _ _ => by cases x <;> rfl)

variable {α β : Type} {may : Endings} {p : α → Prop} {q : β → Prop}

/-- A value has the property, and other endings are allowed ones. -/
def Yields (may : Endings) (p : α → Prop) : Outcome α → Prop
  | .value a => p a
  | .failure _ => may.fail
  | .aborted => may.abort
  | .exhausted => may.exhaust

@[simp] theorem yields_value {a : α} : Yields may p (.value a) ↔ p a := Iff.rfl

@[simp] theorem yields_failure {e : Error} : Yields may p (.failure e) ↔ may.fail := Iff.rfl

@[simp] theorem yields_aborted : Yields may p .aborted ↔ may.abort := Iff.rfl

@[simp] theorem yields_exhausted : Yields may p .exhausted ↔ may.exhaust := Iff.rfl

/-- A computation that goes on with a value may end as the first part may. -/
theorem Yields.bind {x : Outcome α} {f : α → Outcome β} (hx : x.Yields may p)
    (hf : ∀ a, p a → (f a).Yields may q) : (x >>= f).Yields may q := by
  cases x with
  | value a => exact hf a hx
  | failure e => exact hx
  | aborted => exact hx
  | exhausted => exact hx

theorem Yields.mono {p' : α → Prop} {x : Outcome α} (hx : x.Yields may p)
    (h : ∀ a, p a → p' a) : x.Yields may p' := by
  cases x with
  | value a => exact h a hx
  | failure e => exact hx
  | aborted => exact hx
  | exhausted => exact hx

/-- A function of a value, by what it makes of what is known. -/
theorem Yields.map {x : Outcome α} {f : α → β} (hf : ∀ a, p a → q (f a))
    (hx : x.Yields may p) : (f <$> x).Yields may q := by
  cases x with
  | value a => exact hf a hx
  | failure e => exact hx
  | aborted => exact hx
  | exhausted => exact hx

/-- Nothing is said of a run. -/
theorem yields_any (x : Outcome α) : x.Yields .any fun _ => True := by
  cases x <;> trivial

/-- A value that is returned has the property. -/
theorem Yields.of_value {x : Outcome α} {a : α} (hx : x.Yields may p) (h : x = .value a) :
    p a := by
  subst h
  exact hx

/-- A value that is returned is known to be that. -/
theorem Yields.and_eq {x : Outcome α} (hx : x.Yields may p) :
    x.Yields may fun a => x = .value a ∧ p a := by
  cases x with
  | value a => exact ⟨rfl, hx⟩
  | failure e => exact hx
  | aborted => exact hx
  | exhausted => exact hx

/-- To yield without failing is to be no failure, and to have the property if
there is a value. -/
theorem yields_unfailing {x : Outcome α} :
    x.Yields .unfailing p ↔ (∀ e, x ≠ .failure e) ∧ ∀ a, x = .value a → p a := by
  cases x <;> simp [Endings.unfailing]

/-- To yield and to return is to have a value with the property. -/
theorem yields_returning {x : Outcome α} :
    x.Yields .returning p ↔ ∃ a, x = .value a ∧ p a := by
  cases x <;> simp [Endings.returning]

/-- What holds of a run holds of it when more endings are allowed. -/
theorem Yields.weaken {may' : Endings} {x : Outcome α} (hx : x.Yields may p)
    (hfail : may.fail → may'.fail) (habort : may.abort → may'.abort)
    (hexhaust : may.exhaust → may'.exhaust) : x.Yields may' p := by
  cases x with
  | value a => exact hx
  | failure e => exact hfail hx
  | aborted => exact habort hx
  | exhausted => exact hexhaust hx

/-- Where a run may end in any way, only its values are spoken of. -/
theorem Yields.toAny {x : Outcome α} (hx : x.Yields may p) : x.Yields .any p :=
  hx.weaken (fun _ => trivial) (fun _ => trivial) fun _ => trivial

/-- A checked word operation stops only where it overflows. -/
theorem Yields.ofChecked {x : Option α} (habort : x = none → may.abort)
    (h : ∀ a, x = some a → p a) : (Outcome.ofChecked x).Yields may p := by
  cases x with
  | none => exact habort rfl
  | some a => exact h a rfl

/-- A result without an error is a value. -/
theorem Yields.liftM_ok {x : Except Error α} {a : α} (hx : x = .ok a) (h : p a) :
    (liftM x : Outcome α).Yields may p := by
  subst hx
  exact h

/-- A computation that may raise errors, where they are allowed. -/
theorem Yields.of_ensures {x : Except Error α} (hfail : may.fail) (h : Ensures p x) :
    (liftM x : Outcome α).Yields may p := by
  cases x with
  | ok a => exact h a rfl
  | error e => exact hfail

/-- Entries that yield make a list that yields. -/
theorem Yields.mapM {r : α → β → Prop} {f : α → Outcome β} {as : List α}
    (h : ∀ a ∈ as, (f a).Yields may (r a)) :
    (as.mapM f).Yields may (List.Forall₂ r as) := by
  induction as with
  | nil => exact .nil
  | cons a as ih =>
    rw [List.mapM_cons]
    refine (h a List.mem_cons_self).bind fun b hb => ?_
    refine (ih fun a' ha' => h a' (List.mem_cons_of_mem _ ha')).bind fun bs hbs => ?_
    exact .cons hb hbs

/-! ### Runs that end nowhere -/

/-- What follows a part that may only run out of budget runs out if its
continuations do. -/
theorem Yields.bind_exhausted {x : Outcome α} {f : α → Outcome β}
    (hx : x.Yields .exhaustOnly p) (hf : ∀ a, p a → f a = .exhausted) :
    x >>= f = .exhausted := by
  cases x with
  | value a => exact hf a hx
  | failure e => exact hx.elim
  | aborted => exact hx.elim
  | exhausted => rfl

/-- A computation that is exhausted does not go on. -/
theorem bind_of_exhausted {x : Outcome α} (hx : x = .exhausted) (f : α → Outcome β) :
    x >>= f = .exhausted := by
  rw [hx]
  rfl

/-- One entry that runs out of budget is enough for a list to do so. -/
theorem mapM_exhausted {f : α → Outcome β} {as : List α}
    (h : ∀ a ∈ as, (f a).Yields .exhaustOnly fun _ => True) {a : α} (ha : a ∈ as)
    (hf : f a = .exhausted) : as.mapM f = .exhausted := by
  induction as with
  | nil => exact absurd ha List.not_mem_nil
  | cons a' as ih =>
    rw [List.mapM_cons]
    rcases List.mem_cons.mp ha with rfl | ha
    · exact bind_of_exhausted hf _
    · refine (h a' List.mem_cons_self).bind_exhausted fun b _ => ?_
      exact bind_of_exhausted (ih (fun a' h' => h a' (List.mem_cons_of_mem _ h')) ha) _

end Outcome

end Multiprecision
