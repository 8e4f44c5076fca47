import Mathlib
import Multiprecision.Proofs.Outcome

/-!
# Multiprecision.Proofs.Outcome.Agreement

Two runs side by side:

* `Outcome.Agree` — two runs end alike, unless one of them ends in a way that
  is not counted;
* `Agree.bind` — runs whose parts agree agree;
* `Agree.of_yields` — runs of which the same is known agree;
* `Agree.restrict` — an ending that neither run can have need not be left out;
* `Finished` — the runs that end with a value or with an error.

Runs under different settings may stop at different places, in a machine word
or for want of budget.  What they have in common is said of those that do not.
-/

namespace Multiprecision.Outcome

variable {α β α' β' : Type} {loose may : Endings}

/-- The run ends without a value, in one of the given ways. -/
def EndsBy (ends : Endings) (x : Outcome α) : Prop := x.Yields ends fun _ => False

/-- Two runs end in the same way, and values are related. -/
inductive Alike (r : α → β → Prop) : Outcome α → Outcome β → Prop
  | value {a : α} {b : β} : r a b → Alike r (.value a) (.value b)
  | failure (e : Error) : Alike r (.failure e) (.failure e)
  | aborted : Alike r .aborted .aborted
  | exhausted : Alike r .exhausted .exhausted

/-- Two runs end alike, unless one of them ends in a `loose` way. -/
def Agree (loose : Endings) (r : α → β → Prop) (x : Outcome α) (y : Outcome β) : Prop :=
  x.EndsBy loose ∨ y.EndsBy loose ∨ Alike r x y

variable {r : α → β → Prop} {s : α' → β' → Prop} {x : Outcome α} {y : Outcome β}

/-- A computation that ends early ends the one that it is part of. -/
theorem EndsBy.bind (h : x.EndsBy loose) (f : α → Outcome α') : (x >>= f).EndsBy loose :=
  Yields.bind h fun _ => False.elim

theorem Agree.value {a : α} {b : β} (h : r a b) : Agree loose r (.value a) (.value b) :=
  .inr (.inr (.value h))

theorem Agree.failure (e : Error) :
    Agree loose r (.failure e : Outcome α) (.failure e : Outcome β) :=
  .inr (.inr (.failure e))

/-- A computation agrees with itself over any reflexive relation. -/
theorem Agree.refl {r : α → α → Prop} {x : Outcome α} (h : ∀ a, r a a) : Agree loose r x x := by
  refine .inr (.inr ?_)
  cases x with
  | value a => exact .value (h a)
  | failure e => exact .failure e
  | aborted => exact .aborted
  | exhausted => exact .exhausted

theorem Agree.rfl {x : Outcome α} : Agree loose Eq x x := .refl fun _ => Eq.refl _

/-- The relation between the values may be weakened. -/
theorem Agree.mono {r' : α → β → Prop} (h : Agree loose r x y) (hr : ∀ a b, r a b → r' a b) :
    Agree loose r' x y := by
  refine h.imp_right (Or.imp_right fun halike => ?_)
  cases halike with
  | value hab => exact .value (hr _ _ hab)
  | failure e => exact .failure e
  | aborted => exact .aborted
  | exhausted => exact .exhausted

/-- Runs that agree do so when more endings are left out. -/
theorem Agree.weaken {loose' : Endings} (h : Agree loose r x y)
    (hfail : loose.fail → loose'.fail) (habort : loose.abort → loose'.abort)
    (hexhaust : loose.exhaust → loose'.exhaust) : Agree loose' r x y :=
  h.imp (·.weaken hfail habort hexhaust) (Or.imp_left (·.weaken hfail habort hexhaust))

/-- Computations that agree, one after the other, agree. -/
theorem Agree.bind {f : α → Outcome α'} {g : β → Outcome β'} (h : Agree loose r x y)
    (hfg : ∀ a b, r a b → Agree loose s (f a) (g b)) : Agree loose s (x >>= f) (y >>= g) := by
  rcases h with hx | hy | halike
  · exact .inl (hx.bind f)
  · exact .inr (.inl (hy.bind g))
  · cases halike with
    | value hab => exact hfg _ _ hab
    | failure e => exact .inr (.inr (.failure e))
    | aborted => exact .inr (.inr .aborted)
    | exhausted => exact .inr (.inr .exhausted)

/-- Runs whose beginnings agree go on with the same value. -/
theorem Agree.bind_eq {x y : Outcome α} {f : α → Outcome α'} {g : α → Outcome β'}
    (h : Agree loose Eq x y) (hfg : ∀ a, Agree loose s (f a) (g a)) :
    Agree loose s (x >>= f) (y >>= g) :=
  h.bind fun a b hab => by
    subst hab
    exact hfg a

/-- Runs of which the same is known agree. -/
theorem Agree.of_yields {p : α → Prop} {q : β → Prop} (hx : x.Yields loose p)
    (hy : y.Yields loose q) : Agree loose (fun a b => p a ∧ q b) x y := by
  cases x with
  | value a =>
    cases y with
    | value b => exact .value ⟨hx, hy⟩
    | failure e => exact .inr (.inl hy)
    | aborted => exact .inr (.inl hy)
    | exhausted => exact .inr (.inl hy)
  | failure e => exact .inl hx
  | aborted => exact .inl hx
  | exhausted => exact .inl hx

/-- A run agrees with itself, in what is known of it too. -/
theorem Agree.rfl_of_yields {p : α → Prop} {x : Outcome α} (hx : x.Yields may p) :
    Agree loose (fun a b => a = b ∧ p a) x x := by
  cases x with
  | value a => exact .value ⟨Eq.refl a, hx⟩
  | failure e => exact .failure e
  | aborted => exact .inr (.inr .aborted)
  | exhausted => exact .inr (.inr .exhausted)

/-- Only endings that both the relation and the runs allow need be left out. -/
theorem Agree.restrict {p : α → Prop} {q : β → Prop} {loose' : Endings} (h : Agree loose r x y)
    (hx : x.Yields may p) (hy : y.Yields may q) (hfail : loose.fail → may.fail → loose'.fail)
    (habort : loose.abort → may.abort → loose'.abort)
    (hexhaust : loose.exhaust → may.exhaust → loose'.exhaust) :
    Agree loose' (fun a b => r a b ∧ p a ∧ q b) x y := by
  have hends {γ : Type} {p : γ → Prop} {z : Outcome γ} (hz : z.EndsBy loose)
      (hmay : z.Yields may p) : z.EndsBy loose' := by
    cases z with
    | value a => exact hz.elim
    | failure e => exact hfail hz hmay
    | aborted => exact habort hz hmay
    | exhausted => exact hexhaust hz hmay
  rcases h with h | h | halike
  · exact .inl (hends h hx)
  · exact .inr (.inl (hends h hy))
  · cases halike with
    | value hab => exact .value ⟨hab, hx, hy⟩
    | failure e => exact .failure e
    | aborted => exact .inr (.inr .aborted)
    | exhausted => exact .inr (.inr .exhausted)

/-- Runs that agree are the same, if neither ends in a way that is left out. -/
theorem Agree.eq {x y : Outcome α} (h : Agree loose Eq x y) (hx : ¬ x.EndsBy loose)
    (hy : ¬ y.EndsBy loose) : x = y := by
  obtain hends | hends | halike := h
  · exact absurd hends hx
  · exact absurd hends hy
  · cases halike with
    | value hab => rw [hab]
    | failure e => rfl
    | aborted => rfl
    | exhausted => rfl

/-! ## Runs that finish -/

/-- The run ends with a value or with an error. -/
def Finished (x : Outcome α) : Prop := (∃ a, x = .value a) ∨ ∃ e, x = .failure e

/-- What has finished has not ended early. -/
theorem Finished.not_endsBy {x : Outcome α} (h : x.Finished) : ¬ x.EndsBy .unfailing := by
  obtain ⟨a, rfl⟩ | ⟨e, rfl⟩ := h
  · exact id
  · exact id

end Multiprecision.Outcome
