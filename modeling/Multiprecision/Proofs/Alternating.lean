import Mathlib
import Multiprecision.Alternating
import Multiprecision.Proofs.Arithmetic

/-!
# Multiprecision.Proofs.Alternating

Steps of two buffers that take turns, by the value of the current one: a step
that succeeds makes its result the current value (`mul_yields`,
`square_yields`, `rem_yields`), whatever the idle buffer held, and opening
places does not change it.  A product changes turns (`mul_turns`), so it is known
in advance which buffer is current after some of them, and that is the one in
which places can be opened (`buffer_reserveBitsAfter`).
-/

namespace Multiprecision.Alternating

open Integer

variable {may : Endings} {A : Arithmetic} {p : Alternating} {i j : Int}

/-- What is written into the idle buffer is current after the turn. -/
@[simp] theorem current_swap_setIdle (p : Alternating) (x : Integer) :
    (p.setIdle x).swap.current = x := by
  rw [setIdle]
  split
  · next h => simp [swap, current, h]
  · next h => simp [swap, current, h]

/-- A step that writes the idle buffer, as one computation that may fail. -/
theorem orFail_write (p : Alternating) (o : Integer → Integer → Outcome Integer) :
    orFail (p.write fun x idle => written idle (o x idle)) =
      (do return (p.setIdle (← o p.current p.idle)).swap) := by
  rw [write]
  cases o p.current p.idle <;> rfl

/-! ## Steps -/

/-- A product becomes the current value. -/
theorem mul_yields (hA : A.Exact may) (hp : p.current.Denotes i) {y : Integer}
    (hy : y.Denotes j) : (orFail (p.mul A y)).Yields may (·.current.Denotes (i * j)) := by
  rw [mul, orFail_write]
  refine (hA.mul_pair hp hy p.idle).bind fun z hz => ?_
  change (p.setIdle z).swap.current.Denotes (i * j)
  rwa [current_swap_setIdle]

/-- The square becomes the current value. -/
theorem square_yields (hA : A.Exact may) (hp : p.current.Denotes i) :
    (orFail (p.square A)).Yields may (·.current.Denotes (i * i)) := by
  rw [square, orFail_write]
  refine (hA.mul_twice hp p.idle).bind fun z hz => ?_
  change (p.setIdle z).swap.current.Denotes (i * i)
  rwa [current_swap_setIdle]

/-- The remainder becomes the current value, and the quotient goes to the scratch
buffer. -/
theorem rem_yields (hA : A.Exact may) (hp : p.current.Denotes i) {m : Integer}
    (hm : m.Denotes j) (hj : j ≠ 0) :
    (orFail (p.rem A m)).Yields may (·.current.Denotes (i % j)) := by
  have hdivide := hA.divide hp.compact hm hj p.idle
  have hstep : orFail (p.rem A m) = (do
      let qr ← A.divide p.current.compact m p.idle
      return ({ p with scratch := qr.1 }.setIdle qr.2).swap) := by
    have hidle : ({ p with scratch := p.current.compact } : Alternating).idle = p.idle := rfl
    simp only [rem, hidle]
    cases A.divide p.current.compact m p.idle <;> rfl
  rw [hstep]
  refine hdivide.bind ?_
  rintro ⟨q, r⟩ ⟨-, hr⟩
  change ({ p with scratch := q }.setIdle r).swap.current.Denotes (i % j)
  rwa [current_swap_setIdle]

/-! ## Storage -/

theorem reserveBits_denotes (hp : p.current.Denotes i) (bits : Nat) :
    (p.reserveBits bits).current.Denotes i := by
  obtain ⟨first, second, swapped, scratch⟩ := p
  cases swapped <;> exact Denotes.reserve hp _

/-- Opening places in one buffer does not change the current value. -/
theorem reserveBitsAfter_denotes (hp : p.current.Denotes i) (writes bits : Nat) :
    (p.reserveBitsAfter writes bits).current.Denotes i := by
  obtain ⟨first, second, swapped, scratch⟩ := p
  rw [reserveBitsAfter]
  cases swapped <;> split <;> first | exact hp | exact Denotes.reserve hp _

/-! ## Turns -/

/-- A buffer by its place. -/
def buffer (p : Alternating) (second : Bool) : Integer := if second then p.second else p.first

theorem buffer_swapped (p : Alternating) : p.buffer p.swapped = p.current := rfl

@[simp] theorem swapped_setIdle (p : Alternating) (x : Integer) :
    (p.setIdle x).swapped = p.swapped := by
  unfold setIdle
  split <;> rfl

@[simp] theorem swapped_reserveBitsAfter (p : Alternating) (writes bits : Nat) :
    (p.reserveBitsAfter writes bits).swapped = p.swapped := by
  unfold reserveBitsAfter
  split <;> rfl

/-- Places are opened in one buffer only, the one whose turn it is after the
writes. -/
theorem buffer_reserveBitsAfter (p : Alternating) (writes bits : Nat) (second : Bool) :
    (p.reserveBitsAfter writes bits).buffer second =
      if second = (p.swapped != (writes % 2 == 1)) then (p.buffer second).reserveBits bits
      else p.buffer second := by
  unfold reserveBitsAfter buffer
  generalize (p.swapped != (writes % 2 == 1)) = turn
  cases turn <;> cases second <;> rfl

/-- A product that succeeds changes turns. -/
theorem mul_turns (A : Arithmetic) (p : Alternating) (y : Integer) :
    (orFail (p.mul A y)).Yields .any (·.swapped = !p.swapped) := by
  rw [mul, orFail_write]
  cases A.mul (.pair p.current y) p.idle with
  | value z => simp [swap]
  | failure e => trivial
  | aborted => trivial
  | exhausted => trivial

end Multiprecision.Alternating
