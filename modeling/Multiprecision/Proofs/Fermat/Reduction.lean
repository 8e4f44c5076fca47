import Mathlib
import Multiprecision.Proofs.Fermat.Spectrum
import Multiprecision.Proofs.Quotient

/-!
# Multiprecision.Proofs.Fermat.Reduction

The reduction modulo `2^e + 1` as loops that no budget stops:

* `Loop` — a loop that ends, and where it ends;
* `Reduces` — what the loops of the reduction make of a number;
* `reduces_iff` — they end, and leave the number that `reduce` computes;
* `reduce_exact` — it is the remainder by the modulus, which a division
  computes as well.
-/

namespace Multiprecision

/-! ## Loops -/

/-- A loop that repeats `body` for as long as `test` holds takes `s` to `t`. -/
inductive Loop {σ : Type} (test : σ → Bool) (body : σ → σ) : (s t : σ) → Prop where
  | stop {s : σ} : test s = false → Loop test body s s
  | again {s t : σ} : test s = true → Loop test body (body s) t → Loop test body s t

/-- A loop ends in one state at most. -/
theorem Loop.unique {σ : Type} {test : σ → Bool} {body : σ → σ} {s t t' : σ}
    (h : Loop test body s t) (h' : Loop test body s t') : t = t' := by
  induction h with
  | stop hstop =>
    cases h' with
    | stop => rfl
    | again hagain => exact absurd hagain (by simp [hstop])
  | again hagain _ ih =>
    cases h' with
    | stop hstop => exact absurd hagain (by simp [hstop])
    | again _ hrest => exact ih hrest

namespace Fermat

open Integer

/-! ## The loops of the reduction -/

/-- How far a number has been cut into windows: where the next window starts,
whether it is taken off, and the sum of those before it. -/
structure Cut where
  start : Nat := 0
  subtract : Bool := false
  sum : Integer := .zero

/-- Counts one more window of `e` bits. -/
def Cut.next (e : Nat) (x : Integer) (c : Cut) : Cut where
  start := c.start + e
  subtract := !c.subtract
  sum :=
    let window := x.bitWindow c.start (c.start + e - 1)
    if c.subtract then c.sum.sub window else c.sum.add window

/-- The loops of the reduction take `x` to `r`: windows are cut off up to the
last bit, then the modulus is added to a negative sum, then it is taken off
what is not below it. -/
inductive Reduces (e : Nat) (x : Integer) : (r : Integer) → Prop where
  | small : x.below (modulus e) = true → Reduces e x x.abs
  | large {c : Cut} {y r : Integer} : x.below (modulus e) = false →
      Loop (fun c => decide (c.start < x.bitLength)) (Cut.next e x) {} c →
      Loop isNegative (·.add (modulus e)) c.sum y →
      Loop (fun y => !y.below (modulus e)) (·.sub (modulus e)) y r →
      Reduces e x r

/-- A reduction ends in one way only. -/
theorem Reduces.unique {e : Nat} {x r r' : Integer} (h : Reduces e x r) (h' : Reduces e x r') :
    r = r' := by
  cases h with
  | small hbelow =>
    cases h' with
    | small => rfl
    | large hnot => exact absurd hbelow (by simp [hnot])
  | large hnot hcut hraise hlower =>
    cases h' with
    | small hbelow => exact absurd hbelow (by simp [hnot])
    | large _ hcut' hraise' hlower' =>
      obtain rfl := hcut.unique hcut'
      obtain rfl := hraise.unique hraise'
      exact hlower.unique hlower'

variable {e : Nat} {x m : Integer}

/-! ## The loops end -/

/-- The windows, once they reach the last bit. -/
theorem loop_alternatingSum {n : Nat} (c : Cut) (hlast : x.bitLength ≤ c.start + n * e)
    (hbefore : ∀ k < n, c.start + k * e < x.bitLength) :
    ∃ c', Loop (fun c => decide (c.start < x.bitLength)) (Cut.next e x) c c' ∧
      c'.sum = alternatingSum e x n c.start c.subtract c.sum := by
  induction n generalizing c with
  | zero => exact ⟨c, .stop (by simpa using hlast), rfl⟩
  | succ n ih =>
    have hstart := hbefore 0 n.succ_pos
    obtain ⟨c', hloop, hsum⟩ := ih (c.next e x)
      (by simp only [Cut.next]; rw [Nat.succ_mul] at hlast; omega) fun k hk => by
        have hk := hbefore (k + 1) (by omega)
        simp only [Cut.next]
        rw [Nat.succ_mul] at hk
        omega
    exact ⟨c', .again (by simpa using hstart) hloop, hsum⟩

/-- Adding the modulus, if the budget was enough. -/
theorem loop_raise {n : Nat} (h : (raise m n x).isNegative = false) :
    Loop isNegative (·.add m) x (raise m n x) := by
  induction n generalizing x with
  | zero => exact .stop h
  | succ n ih =>
    rw [raise] at h ⊢
    split at h
    · next hneg =>
      rw [if_pos hneg]
      exact .again hneg (ih h)
    · next hneg =>
      rw [if_neg hneg]
      exact .stop h

/-- Taking the modulus off, if the budget was enough. -/
theorem loop_lower {n : Nat} (h : (lower m n x).below m = true) :
    Loop (fun y => !y.below m) (·.sub m) x (lower m n x) := by
  induction n generalizing x with
  | zero =>
    rw [lower] at h ⊢
    exact .stop (by simpa using h)
  | succ n ih =>
    rw [lower] at h ⊢
    split at h
    · next hbelow =>
      rw [if_pos hbelow]
      exact .stop (by simpa using hbelow)
    · next hbelow =>
      rw [if_neg hbelow]
      exact .again (by simpa using hbelow) (ih h)

variable [NeZero e]

/-- The loops end for a number that is not negative, and the budgets of `reduce`
are enough for them. -/
theorem reduces_reduce {n : Nat} (h : x.Denotes n) : Reduces e x (reduce e x) := by
  have he := NeZero.pos e
  have hmod : (modulus e).Denotes ((2 ^ e + 1 : Nat) : Int) := denotes_modulus e
  simp only [reduce]
  split
  · next hbelow => exact .small hbelow
  · next hbelow =>
    obtain ⟨j, -, hraise, hlower⟩ := reduction_spec (e := e) h rfl
    have hcover : x.bitLength ≤ (x.bitLength + e - 1) / e * e := by
      have hdm := Nat.div_add_mod (x.bitLength + e - 1) e
      have hlt := Nat.mod_lt (x.bitLength + e - 1) he
      rw [Nat.mul_comm] at hdm
      omega
    obtain ⟨c, hcut, hsum⟩ := loop_alternatingSum (e := e) {} (by simpa using hcover) fun k hk => by
      have hk := (Nat.le_div_iff_mul_le he).mp (Nat.succ_le_of_lt hk)
      rw [Nat.succ_mul] at hk
      simp only
      omega
    have hraised := hraise.isNegative_iff.not.mpr (by omega)
    have hlowered := (hlower.below_iff hmod).mpr (Nat.mod_lt j (Nat.succ_pos _))
    refine .large (by simpa using hbelow) hcut ?_ (loop_lower hlowered)
    rw [hsum]
    exact loop_raise (Bool.eq_false_iff.mpr hraised)

/-- A number that is not negative is reduced to what the definition computes. -/
theorem reduces_iff {n : Nat} (h : x.Denotes n) {r : Integer} :
    Reduces e x r ↔ r = reduce e x :=
  ⟨fun hr => hr.unique (reduces_reduce h), fun hr => hr ▸ reduces_reduce h⟩

/-- The loops of the reduction end for every number that is not negative, and
in one number only.  It is a residue, and the remainder by the modulus: that
of the values, and any that a division returns, whatever the thresholds. -/
theorem reduce_exact (hx : x.Canonical) (h0 : 0 ≤ x.toInt) :
    (∀ r, Reduces e x r ↔ r = reduce e x) ∧ IsResidue e (reduce e x) ∧
      (modulus e).toInt = 2 ^ e + 1 ∧ (reduce e x).toInt = x.toInt % (2 ^ e + 1) ∧
      ∀ t depth into q r,
        (Arithmetic.ofThresholds t depth).divide x (modulus e) into = .value (q, r) →
          r.equals (reduce e x) = true := by
  obtain ⟨n, hn⟩ : ∃ n : Nat, x.Denotes n := ⟨_, hx.denotes.toNat h0⟩
  have hmod := denotes_modulus e
  have hreduce := represents_reduce (e := e) hn
  have hvalue := Represents.toInt_eq (i := n) (by exact_mod_cast hreduce)
  rw [← hn.toInt] at hvalue
  refine ⟨fun r => reduces_iff hn, (represents_iff.mp hreduce).1, hmod.toInt, hvalue, ?_⟩
  intro t depth into q r hdivide
  obtain ⟨-, -, hr⟩ :=
    (Quotient.ofThresholds_divide_yields t depth hx.denotes hmod into).of_value hdivide
  exact (hr.equals_iff hreduce.isCanonical.denotes).mpr hvalue.symm

/-- The number `1025² - 1`, with a place in reserve, modulo `2^10 + 1`.  Its
windows are 0, 2 and a partial 1, so their sum is -1, and the modulus is added
once; a division leaves the same number. -/
theorem reduce_exact_three_windows :
    Canonical ⟨false, [1050624, 0]⟩ ∧ 0 ≤ (⟨false, [1050624, 0]⟩ : Integer).toInt ∧
      Reduces 10 ⟨false, [1050624, 0]⟩ ⟨false, [1024]⟩ ∧
      (⟨false, [1024]⟩ : Integer).toInt = 1050624 % (2 ^ 10 + 1) ∧
      (Arithmetic.ofThresholds {} 3).divide ⟨false, [1050624, 0]⟩ (modulus 10) .zero =
        .value (⟨false, [1024, 0]⟩, ⟨false, [1024]⟩) ∧
      equals ⟨false, [1024]⟩ (reduce 10 ⟨false, [1050624, 0]⟩) = true := by
  have hx : Canonical ⟨false, [1050624, 0]⟩ := by simp [Canonical, Digits.base]
  have h0 : 0 ≤ (⟨false, [1050624, 0]⟩ : Integer).toInt := by decide
  have hrun : reduce 10 ⟨false, [1050624, 0]⟩ = ⟨false, [1024]⟩ := by decide +kernel
  have hdivide : (Arithmetic.ofThresholds {} 3).divide ⟨false, [1050624, 0]⟩ (modulus 10) .zero =
      .value (⟨false, [1024, 0]⟩, ⟨false, [1024]⟩) := by decide +kernel
  obtain ⟨hloops, -, -, hvalue, hagrees⟩ := reduce_exact (e := 10) hx h0
  rw [hrun] at hvalue
  exact ⟨hx, h0, (hloops _).mpr hrun.symm, hvalue, hdivide, hagrees _ _ _ _ _ hdivide⟩

end Fermat

end Multiprecision
