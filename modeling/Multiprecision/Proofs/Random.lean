import Mathlib
import Multiprecision.Random
import Multiprecision.Proofs.Integer
import Multiprecision.Proofs.Outcome

/-!
# Multiprecision.Proofs.Random

Random numbers, whatever the stream of bytes:

* `Random.bits_yields` — digits that are drawn make a number;
* `Random.below_yields` — one that is drawn below a bound is there;
* `Random.Drawn` — numbers that are drawn one after the other.

Drawing never fails, but may go on without end.
-/

namespace Multiprecision.Random

open Integer Outcome

/-- A step that draws nothing leaves the stream to the next one. -/
theorem run_lift_bind {σ α β : Type} (o : Outcome α) (f : α → Draw σ β) (s : σ) :
    ((liftM o : Draw σ α) >>= f).run s = o >>= fun a => (f a).run s := by
  rw [StateT.run_bind, StateT.run_monadLift, bind_assoc]
  rfl

variable {σ : Type} [ByteSource σ] {may : Endings}

/-- Random words make a canonical integer that is not negative. -/
theorem denotes_ofWords (bits : Nat) (ws : List UInt32) :
    (ofWords bits ws).Denotes (ofWords bits ws).magnitude :=
  denotes_nonneg (canonical_ofDigits _).1 rfl

theorem words_yields (n : Nat) (s : σ) : ((words n).run s).Yields may fun _ => True := by
  induction n generalizing s with
  | zero => trivial
  | succ n ih =>
    rw [words, StateT.run_bind]
    refine Yields.bind (p := fun _ => True) trivial fun (w, s) _ => ?_
    rw [StateT.run_bind]
    exact (ih s).bind fun _ _ => trivial

/-- Random bits make a canonical integer that is not negative. -/
theorem bits_yields (n : Nat) (s : σ) :
    ((bits n).run s).Yields may fun (x, _) => x.Denotes x.magnitude := by
  rw [bits, StateT.run_bind]
  exact (words_yields _ s).bind fun (ws, _) _ => denotes_ofWords n ws

/-- What is drawn until it is accepted is accepted, if the draws end. -/
theorem untilAccepted_yields (hexhaust : may.exhaust) (n : Nat) (accept : Integer → Bool)
    (attempts : Nat) (s : σ) :
    ((untilAccepted n accept attempts).run s).Yields may fun (x, _) =>
      x.Denotes x.magnitude ∧ accept x = true := by
  induction attempts generalizing s with
  | zero => exact hexhaust
  | succ attempts ih =>
    rw [untilAccepted, StateT.run_bind]
    refine (bits_yields n s).bind fun (x, s) hx => ?_
    dsimp only
    split
    · next haccept => exact ⟨hx, haccept⟩
    · exact ih s

variable {m : Integer} {n : Int}

/-- A number that is drawn below a positive bound is there. -/
theorem below_yields (hexhaust : may.exhaust) (hm : m.Denotes n) (hn : 0 < n) (attempts : Nat)
    (s : σ) :
    ((below attempts m).run s).Yields may fun (x, _) =>
      x.Canonical ∧ 0 ≤ x.toInt ∧ x.toInt < n := by
  rw [below, if_pos (hm.isPositive_iff.mpr hn)]
  refine (untilAccepted_yields hexhaust _ _ attempts s).mono fun (x, _) ⟨hx, hbelow⟩ => ?_
  rw [hx.below_iff hm] at hbelow
  refine ⟨hx.canonical, ?_, ?_⟩
  · rw [hx.toInt]
    exact Int.natCast_nonneg _
  · rw [hx.toInt]
    omega

/-! ## Streams -/

/-- The numbers `xs` below `m` are drawn one after the other, which takes the
stream from `s` to `s'`. -/
inductive Drawn (attempts : Nat) (m : Integer) : (s : σ) → List Integer → (s' : σ) → Prop
  | nil (s : σ) : Drawn attempts m s [] s
  | cons {s s' s'' : σ} {x : Integer} {xs : List Integer} :
    (Random.below attempts m).run s = .value (x, s') → Drawn attempts m s' xs s'' →
      Drawn attempts m s (x :: xs) s''

variable {attempts : Nat} {s s' s'' : σ} {xs ys : List Integer}

theorem Drawn.single {x : Integer} (h : (Random.below attempts m).run s = .value (x, s')) :
    Drawn attempts m s [x] s' := .cons h (.nil s')

/-- Draws in a row, one sequence after another. -/
theorem Drawn.append (hx : Drawn attempts m s xs s') (hy : Drawn attempts m s' ys s'') :
    Drawn attempts m s (xs ++ ys) s'' := by
  induction hx with
  | nil s => exact hy
  | cons hdraw _ ih => exact .cons hdraw (ih hy)

/-- What is drawn is in range. -/
theorem Drawn.bounds (hm : m.Denotes n) (hn : 0 < n) (h : Drawn attempts m s xs s') :
    ∀ x ∈ xs, x.Canonical ∧ 0 ≤ x.toInt ∧ x.toInt < n := by
  induction h with
  | nil s => simp
  | @cons s _ _ _ _ hdraw _ ih =>
    have hx : ((Random.below attempts m).run s).Yields .any _ :=
      below_yields trivial hm hn attempts s
    exact List.forall_mem_cons.mpr ⟨hx.of_value hdraw, ih⟩

end Multiprecision.Random
