import Mathlib
import Multiprecision.NumberTheory.Primality
import Multiprecision.Proofs.Integer.Machine
import Multiprecision.Proofs.Integer.Shift
import Multiprecision.Proofs.Integer.Sum
import Multiprecision.Proofs.Integer.Word
import Multiprecision.Proofs.NumberTheory.Power
import Multiprecision.Proofs.Random
import Multiprecision.Random.Generator

/-!
# Multiprecision.Proofs.NumberTheory.Primality

The tests for primes:

* `noDivisorFrom_iff` — trial division settles an odd number;
* `Strong` — what a witness of the test of Miller and Rabin has to satisfy,
  which all witnesses do for a prime (`strong_of_prime`);
* `passes_yields` — a round checks just that, in spite of its early exits;
* `millerRabin_yields` — so the verdict is that of the witnesses drawn;
* `isPrime_correct` — what the whole test says of a number.
-/

namespace Multiprecision.NumberTheory

open Integer Outcome Multiprecision.Random

/-! ## Trial division -/

/-- Trial division from `p` on, if no smaller number divides `n`. -/
theorem noDivisorFrom_iff {n p : Nat} (hn : 1 < n) (hodd : n % 2 = 1) (hp : p % 2 = 1)
    (hone : 1 < p) (hmin : p ≤ n.minFac) : noDivisorFrom n p = true ↔ n.Prime := by
  induction p using noDivisorFrom.induct n with
  | case1 p hsquare hdvd =>
    rw [noDivisorFrom, if_pos hsquare, if_pos hdvd]
    refine iff_of_false Bool.false_ne_true fun hprime => ?_
    have hdvd := Nat.dvd_of_mod_eq_zero hdvd
    obtain h | h := (Nat.dvd_prime hprime).mp hdvd
    · omega
    · rw [h] at hsquare
      nlinarith
  | case2 p hsquare hdvd ih =>
    rw [noDivisorFrom, if_pos hsquare, if_neg hdvd]
    have hminodd : n.minFac % 2 = 1 := by
      by_contra heven
      have hdvd : 2 ∣ n := (Nat.dvd_of_mod_eq_zero (by omega)).trans n.minFac_dvd
      omega
    have hne : p ≠ n.minFac := fun h => hdvd (h ▸ Nat.mod_eq_zero_of_dvd n.minFac_dvd)
    exact ih (by omega) (by omega) (by omega)
  | case3 p hsquare =>
    rw [noDivisorFrom, if_neg hsquare]
    refine iff_of_true rfl ?_
    by_contra hcomposite
    have hle := Nat.minFac_sq_le_self (by omega) hcomposite
    nlinarith

/-! ## Rounds -/

/-- The number `w` does not show that `n` is composite, where `n - 1` is
`d · 2^s` with `d` odd. -/
def Strong (n w : Int) (d s : Nat) : Prop :=
  w ^ d ≡ 1 [ZMOD n] ∨ ∃ i < s, w ^ (d * 2 ^ i) ≡ -1 [ZMOD n]

/-- Modulo a prime, one has no square roots but itself and minus one. -/
theorem eq_one_or_minus_one {p : Nat} [Fact p.Prime] {x : ZMod p} {s : Nat}
    (h : x ^ 2 ^ s = 1) : x = 1 ∨ ∃ i < s, x ^ 2 ^ i = -1 := by
  induction s with
  | zero => exact Or.inl (by simpa using h)
  | succ s ih =>
    rw [pow_succ, pow_mul, pow_two, mul_self_eq_one_iff] at h
    cases h with
    | inl hone => exact (ih hone).imp_right fun ⟨i, hi, hx⟩ => ⟨i, by omega, hx⟩
    | inr hminus => exact Or.inr ⟨s, by omega, hminus⟩

/-- No number shows that a prime is composite. -/
theorem strong_of_prime {n : Nat} (hn : n.Prime) {w : Int} (hpos : 0 < w) (hlt : w < n)
    {d s : Nat} (hsplit : (n : Int) - 1 = d * 2 ^ s) : Strong n w d s := by
  have : Fact n.Prime := ⟨hn⟩
  have hexponent : d * 2 ^ s = n - 1 := by
    have hnat : (((n - 1 : Nat)) : Int) = (d * 2 ^ s : Nat) := by
      rw [Nat.cast_sub hn.one_le, Nat.cast_one, hsplit]
      push_cast
      rfl
    exact_mod_cast hnat.symm
  have hne : (w : ZMod n) ≠ 0 := fun hzero => by
    rw [ZMod.intCast_zmod_eq_zero_iff_dvd] at hzero
    exact absurd (Int.le_of_dvd hpos hzero) (not_le.mpr hlt)
  have hfermat : ((w : ZMod n) ^ d) ^ 2 ^ s = 1 := by
    rw [← pow_mul, hexponent]
    exact ZMod.pow_card_sub_one_eq_one hne
  refine (eq_one_or_minus_one hfermat).imp (fun hone => ?_) fun ⟨i, hi, hminus⟩ => ⟨i, hi, ?_⟩
  · rw [← ZMod.intCast_eq_intCast_iff]
    push_cast
    exact hone
  · rw [← ZMod.intCast_eq_intCast_iff, pow_mul]
    push_cast
    exact hminus

variable {may : Endings} {A : Arithmetic} {m minusOne odd w : Integer} {n v : Int}

/-- A remainder is the largest one exactly for numbers congruent to -1. -/
theorem emod_eq_sub_one_iff (hn : 1 < n) : v % n = n - 1 ↔ v ≡ -1 [ZMOD n] := by
  have hminus : (-1) % n = n - 1 := by
    rw [← Int.add_emod_right, neg_add_eq_sub, Int.emod_eq_of_lt (by omega) (by omega)]
  rw [Int.ModEq, hminus]

/-- A remainder is one exactly for numbers congruent to one. -/
theorem emod_eq_one_iff (hn : 1 < n) : v % n = 1 ↔ v ≡ 1 [ZMOD n] := by
  rw [Int.ModEq, Int.emod_eq_of_lt (by omega : 0 ≤ (1 : Int)) hn]

/-- Minus one is among the squares from the second on if the first is it, or
if it is among those of the first. -/
theorem exists_square_iff (count : Nat) :
    (∃ i < count + 1, v ^ 2 ^ (i + 1) ≡ -1 [ZMOD n]) ↔
      v * v ≡ -1 [ZMOD n] ∨ ∃ i < count, (v * v % n) ^ 2 ^ (i + 1) ≡ -1 [ZMOD n] := by
  have hsquare (i : Nat) : (v * v % n) ^ 2 ^ i ≡ v ^ 2 ^ (i + 1) [ZMOD n] := by
    rw [pow_succ', pow_mul, pow_two]
    exact (Int.mod_modEq _ _).pow _
  constructor
  · rintro ⟨i, hi, h⟩
    cases i with
    | zero => exact Or.inl (by simpa [pow_two] using h)
    | succ i => exact Or.inr ⟨i, by omega, (hsquare (i + 1)).trans h⟩
  · rintro (h | ⟨i, hi, h⟩)
    · exact ⟨0, by omega, by simpa [pow_two] using h⟩
    · exact ⟨i + 1, by omega, (hsquare (i + 1)).symm.trans h⟩

/-- The squarings find minus one if it is among the next squares; after a one
there are only ones. -/
theorem reachesMinusOne_yields (hA : A.Exact may) (hm : m.Denotes n) (hn : 2 < n)
    (hminus : minusOne.Denotes (n - 1)) (count : Nat) {x : Alternating}
    (hx : x.current.Denotes v) :
    (reachesMinusOne A m minusOne count x).Yields may fun b =>
      b = true ↔ ∃ i < count, v ^ 2 ^ (i + 1) ≡ -1 [ZMOD n] := by
  induction count generalizing x v with
  | zero => exact iff_of_false Bool.false_ne_true (by simp)
  | succ count ih =>
    rw [reachesMinusOne]
    refine (Alternating.square_yields hA hx).bind fun square hsquare => ?_
    refine (Alternating.rem_yields hA hsquare hm (by omega)).bind fun x hx => ?_
    simp only [exists_square_iff]
    split
    · next hfound =>
      rw [hx.equals_iff hminus, emod_eq_sub_one_iff (by omega)] at hfound
      exact iff_of_true rfl (Or.inl hfound)
    · next hother =>
      rw [hx.equals_iff hminus, emod_eq_sub_one_iff (by omega)] at hother
      simp only [or_iff_right hother]
      split
      · next hone =>
        rw [hx.isOne_iff] at hone
        refine iff_of_false Bool.false_ne_true ?_
        rintro ⟨i, -, h⟩
        rw [hone, one_pow, ← emod_eq_sub_one_iff (by omega),
          Int.emod_eq_of_lt (by omega) (by omega)] at h
        omega
      · exact ih hx

/-- A round checks its witness, in spite of its early exits. -/
theorem passes_yields (hA : A.Exact may) (hm : m.Denotes n) (hn : 2 < n)
    (hminus : minusOne.Denotes (n - 1)) {d s : Nat} (hodd : odd.Denotes d)
    (hs : 0 < s) (hw : w.Denotes v) (hpos : 0 ≤ v) (hlt : v < n) :
    (passes A m minusOne odd s w).Yields may fun b => b = true ↔ Strong n v d s := by
  have hreduced : Reduced v d n := ⟨by omega, Int.natCast_nonneg d, hpos, hlt⟩
  rw [passes]
  refine (powerMod_yields hA hw hodd hm hreduced).bind fun x hx => ?_
  split
  · next hexit =>
    rw [Bool.or_eq_true, hx.isOne_iff, hx.equals_iff hminus, emod_eq_one_iff (by omega),
      emod_eq_sub_one_iff (by omega)] at hexit
    refine iff_of_true rfl (hexit.imp_right fun h => ⟨0, hs, ?_⟩)
    rwa [pow_zero, mul_one]
  · next hgo =>
    rw [Bool.or_eq_true, hx.isOne_iff, hx.equals_iff hminus, emod_eq_one_iff (by omega),
      emod_eq_sub_one_iff (by omega), not_or] at hgo
    have hpow (i : Nat) : (v ^ d % n) ^ 2 ^ i ≡ v ^ (d * 2 ^ i) [ZMOD n] := by
      rw [pow_mul]
      exact (Int.mod_modEq _ _).pow _
    refine (reachesMinusOne_yields hA hm hn hminus (s - 1) (x := .ofInteger x) hx).mono
      fun b hb => hb.trans ?_
    rw [Strong, or_iff_right hgo.1]
    constructor
    · rintro ⟨i, hi, h⟩
      exact ⟨i + 1, by omega, (hpow (i + 1)).symm.trans h⟩
    · rintro ⟨i, hi, h⟩
      cases i with
      | zero => exact absurd (by rwa [pow_zero, mul_one] at h) hgo.2
      | succ i => exact ⟨i, by omega, (hpow (i + 1)).trans h⟩

/-! ## Witnesses -/

variable {σ : Type} [ByteSource σ]

/-- A witness is the first number other than zero that is drawn. -/
theorem witness_yields (hexhaust : may.exhaust) (hm : m.Denotes n) (hn : 0 < n)
    (attempts draws : Nat) (s : σ) :
    ((witness attempts m draws).run s).Yields may fun (w, s') =>
      (w.Canonical ∧ 0 < w.toInt ∧ w.toInt < n) ∧
        ∃ zeros, Drawn attempts m s (zeros ++ [w]) s' ∧ ∀ x ∈ zeros, x.toInt = 0 := by
  induction draws generalizing s with
  | zero => exact hexhaust
  | succ draws ih =>
    rw [witness, StateT.run_bind]
    refine (below_yields hexhaust hm hn attempts s).and_eq.bind ?_
    rintro ⟨w, s'⟩ ⟨hdraw, hw, hpos, hlt⟩
    dsimp only
    split
    · next hzero =>
      rw [hw.denotes.isZero_iff] at hzero
      refine (ih s').mono ?_
      rintro ⟨w', s''⟩ ⟨hw', zeros, hdrawn, hzeros⟩
      exact ⟨hw', w :: zeros, .cons hdraw hdrawn, List.forall_mem_cons.mpr ⟨hzero, hzeros⟩⟩
    · next hne =>
      rw [hw.denotes.isZero_iff] at hne
      exact ⟨⟨hw, lt_of_le_of_ne hpos (Ne.symm hne), hlt⟩, [], .single hdraw, by simp⟩

/-- A verdict after as many rounds as are asked for, by the numbers that were
drawn.  Zeros are no witnesses. -/
structure Verdict (n : Int) (d s rounds : Nat) (drawn : List Integer) (b : Bool) : Prop where
  passed : b = true ↔ ∀ w ∈ drawn, w.toInt ≠ 0 → Strong n w.toInt d s
  complete : b = true → drawn.countP (·.toInt ≠ 0) = rounds

/-- A round by its witness `w`, before which only zeros were drawn. -/
theorem forall_drawn_iff {zeros drawn : List Integer} {p : Integer → Prop}
    (hzeros : ∀ x ∈ zeros, x.toInt = 0) (hw : w.toInt ≠ 0) :
    (∀ x ∈ zeros ++ [w] ++ drawn, x.toInt ≠ 0 → p x) ↔ p w ∧ ∀ x ∈ drawn, x.toInt ≠ 0 → p x := by
  simp only [List.forall_mem_append, List.forall_mem_singleton]
  have hvacuous : ∀ x ∈ zeros, x.toInt ≠ 0 → p x := fun x hx hne => absurd (hzeros x hx) hne
  tauto

/-- Zeros that are drawn before a witness do not count as rounds. -/
theorem countP_drawn {zeros drawn : List Integer} (hzeros : ∀ x ∈ zeros, x.toInt = 0)
    (hw : w.toInt ≠ 0) :
    (zeros ++ [w] ++ drawn).countP (·.toInt ≠ 0) = drawn.countP (·.toInt ≠ 0) + 1 := by
  have hnone : zeros.countP (·.toInt ≠ 0) = 0 := by
    rw [List.countP_eq_zero]
    intro x hx
    simp [hzeros x hx]
  rw [List.countP_append, List.countP_append, hnone, List.countP_singleton]
  simp [hw, Nat.add_comm]

/-- A round, with the choice of its witness and its check side by side. -/
theorem millerRabin_succ_run (A : Arithmetic) (attempts : Nat) (m : Integer) (rounds : Nat)
    (s : σ) :
    (millerRabin A attempts m (rounds + 1)).run s =
      (witness attempts m attempts).run s >>= fun (w, s) =>
        passes A m (m.sub 1) ((m.sub 1).shiftRight (m.sub 1).countTrailingZeros)
          (m.sub 1).countTrailingZeros w >>= fun b =>
            if b then (millerRabin A attempts m rounds).run s else .value (false, s) := by
  rw [millerRabin, StateT.run_bind]
  congr 1
  funext ⟨w, s⟩
  dsimp only
  rw [run_lift_bind]
  congr 1
  funext b
  cases b <;> rfl

/-- How the test splits what is one less than the number. -/
theorem minusOne_split {n : Nat} (hm : m.Denotes n) (hn : 2 < n) (hodd : n % 2 = 1) :
    ∃ d, ((m.sub 1).shiftRight (m.sub 1).countTrailingZeros).Denotes (d : Nat) ∧ d % 2 = 1 ∧
      n - 1 = d * 2 ^ (m.sub 1).countTrailingZeros ∧ 0 < (m.sub 1).countTrailingZeros := by
  have hminus : (m.sub 1).Denotes ((n - 1 : Nat) : Int) := by
    rw [Nat.cast_sub (by omega), Nat.cast_one]
    exact hm.sub denotes_one
  obtain ⟨d, hd, hdodd⟩ := hminus.countTrailingZeros (by omega)
  rw [Int.natAbs_natCast] at hd
  have hshift := hminus.shiftRight_of_nonneg (m.sub 1).countTrailingZeros
  rw [hd, Nat.mul_div_cancel_left d (by positivity)] at hshift
  refine ⟨d, hshift, hdodd, by rw [hd, Nat.mul_comm], ?_⟩
  by_contra hzero
  rw [Nat.eq_zero_of_not_pos hzero, pow_zero, Nat.one_mul] at hd
  omega

/-- Every run of rounds ends with the verdict of the numbers it drew. -/
theorem millerRabin_yields (hA : A.Exact may) (hexhaust : may.exhaust) {n d : Nat}
    (hm : m.Denotes n) (hn : 2 < n)
    (hd : ((m.sub 1).shiftRight (m.sub 1).countTrailingZeros).Denotes d)
    (htwos : 0 < (m.sub 1).countTrailingZeros) (attempts rounds : Nat) (s : σ) :
    ((millerRabin A attempts m rounds).run s).Yields may fun (b, s') =>
      ∃ drawn, Drawn attempts m s drawn s' ∧
        Verdict n d (m.sub 1).countTrailingZeros rounds drawn b := by
  induction rounds generalizing s with
  | zero => exact ⟨[], .nil s, by simp, by simp⟩
  | succ rounds ih =>
    rw [millerRabin_succ_run]
    refine (witness_yields hexhaust hm (by omega) attempts attempts s).bind ?_
    rintro ⟨w, s'⟩ ⟨⟨hw, hpos, hlt⟩, zeros, hdrawn, hzeros⟩
    have hminus : (m.sub 1).Denotes (n - 1 : Int) := hm.sub denotes_one
    have hround := passes_yields hA hm (by omega) hminus hd htwos hw.denotes hpos.le hlt
    refine hround.bind fun b hb => ?_
    cases b with
    | true =>
      refine (ih s').mono ?_
      rintro ⟨b, s''⟩ ⟨drawn, hrest, hverdict⟩
      refine ⟨zeros ++ [w] ++ drawn, hdrawn.append hrest, ?_, fun hb => ?_⟩
      · rw [forall_drawn_iff hzeros hpos.ne', and_iff_right (hb.mp rfl)]
        exact hverdict.passed
      · rw [countP_drawn hzeros hpos.ne', hverdict.complete hb]
    | false =>
      refine ⟨zeros ++ [w], hdrawn, iff_of_false Bool.false_ne_true fun hall => ?_, nofun⟩
      exact Bool.false_ne_true (hb.mpr (hall w (by simp) hpos.ne'))

/-! ## The test -/

/-- A number is an odd number times a power of two in one way only. -/
theorem odd_mul_two_pow_unique {d e i j : Nat} (hd : d % 2 = 1) (he : e % 2 = 1)
    (h : d * 2 ^ i = e * 2 ^ j) : d = e ∧ i = j := by
  have hij : i = j := (isGreatest_two_pow_dvd (Nat.mul_comm d _) hd).unique
    (isGreatest_two_pow_dvd (h.trans (Nat.mul_comm e _)) he)
  subst hij
  exact ⟨Nat.eq_of_mul_eq_mul_right (by positivity) h, rfl⟩

variable {x : Integer} {p : Float}

/-- The arguments that the test is defined for. -/
structure Testable (n : Int) (p : Float) : Prop where
  positive : 0 < n
  number : p.isNaN = false
  chance : ¬ p ≤ 0

/-- Arguments out of range are refused before anything is drawn. -/
theorem isPrime_invalid (hx : x.Denotes n) (h : ¬ Testable n p) :
    ∃ reason, ∀ A attempts (s : σ),
      (isPrime A attempts x p).run s = .failure (.invalidArgument reason) := by
  cases hpositive : x.isPositive with
  | false => exact ⟨_, fun A attempts s => by rw [isPrime, hpositive]; rfl⟩
  | true =>
    have hbad : (p.isNaN || decide (p ≤ 0)) = true := by
      by_contra hgood
      rw [Bool.or_eq_true, not_or, Bool.not_eq_true, decide_eq_true_eq] at hgood
      exact h ⟨hx.isPositive_iff.mp hpositive, hgood.1, hgood.2⟩
    exact ⟨_, fun A attempts s => by rw [isPrime, hpositive, hbad]; rfl⟩

/-- The tests in the order in which they are made. -/
theorem isPrime_run (A : Arithmetic) (attempts : Nat) (hx : x.Denotes n) (h : Testable n p)
    (s : σ) :
    (isPrime A attempts x p).run s =
      if x.isOne then .value (false, s)
      else if x.isEven then .value (x.equals 2, s)
      else if x.bitLength ≤ trialDivisionBits then
        liftM x.toUInt64 >>= fun word => .value (noDivisorFrom word.toNat 3, s)
      else (millerRabin A attempts x (roundsFor mostRounds p)).run s := by
  have hpositive : x.isPositive = true := hx.isPositive_iff.mpr h.positive
  have hgood : (p.isNaN || decide (p ≤ 0)) = false := by
    rw [h.number, Bool.false_or]
    exact decide_eq_false h.chance
  rw [isPrime, hpositive, hgood]
  cases x.isOne with
  | true => rfl
  | false =>
    cases x.isEven with
    | true => rfl
    | false =>
      by_cases hsmall : x.bitLength ≤ trialDivisionBits
      · simp only [if_pos hsmall]
        cases x.toUInt64 <;> rfl
      · simp only [if_neg hsmall]
        rfl

/-- What the answer `b` says of a positive number, for which the stream was
taken from `s` to `s'`. -/
structure Answer (attempts : Nat) (x : Integer) (p : Float) (n : Nat) (s s' : σ) (b : Bool) :
    Prop where
  prime : n.Prime → b = true
  small : n < 2 ^ 20 → (b = true ↔ n.Prime)
  large : 2 ^ 20 ≤ n → n % 2 = 1 → ∃ drawn, Drawn attempts x s drawn s' ∧
    ∀ d k, d % 2 = 1 → n - 1 = d * 2 ^ k → Verdict n d k (roundsFor mostRounds p) drawn b

/-- An answer that was found without drawing is exact. -/
theorem Answer.of_iff {n attempts : Nat} {s s' : σ} {b : Bool} (h : b = true ↔ n.Prime)
    (hdraw : 2 ^ 20 ≤ n → n % 2 = 0) : Answer attempts x p n s s' b where
  prime := h.mpr
  small _ := h
  large hlarge hodd := by
    have := hdraw hlarge
    omega

/-- The test answers for its arguments, over an exact arithmetic. -/
theorem isPrime_yields (hA : A.Exact may) (hexhaust : may.exhaust) {n : Nat} (hx : x.Denotes n)
    (h : Testable n p) (attempts : Nat) (s : σ) :
    ((isPrime A attempts x p).run s).Yields may fun (b, s') => Answer attempts x p n s s' b := by
  have hpos : 0 < n := by exact_mod_cast h.positive
  have hbits : x.bitLength ≤ trialDivisionBits ↔ n < 2 ^ 20 := by
    rw [hx.bitLength, Int.natAbs_natCast, Nat.size_le]
    rfl
  rw [isPrime_run A attempts hx h]
  split
  · next hone =>
    rw [hx.isOne_iff, Nat.cast_eq_one] at hone
    subst hone
    exact .of_iff (iff_of_false Bool.false_ne_true Nat.not_prime_one) (by decide)
  · next hone =>
    rw [hx.isOne_iff, Nat.cast_eq_one] at hone
    split
    · next heven =>
      rw [hx.isEven_iff] at heven
      have heven : 2 ∣ n := by exact_mod_cast heven
      have htwo : (2 : Integer).Denotes (2 : Nat) := denotes_ofNat 2
      refine .of_iff ?_ fun _ => Nat.mod_eq_zero_of_dvd heven
      rw [hx.equals_iff htwo, Nat.cast_inj]
      constructor
      · rintro rfl
        exact Nat.prime_two
      · intro hprime
        exact ((Nat.prime_dvd_prime_iff_eq Nat.prime_two hprime).mp heven).symm
    · next hodd =>
      rw [hx.isEven_iff] at hodd
      have hodd : n % 2 = 1 := by omega
      split
      · next hsmall =>
        rw [hbits] at hsmall
        obtain ⟨word, hword, hvalue⟩ := hx.toUInt64 (hsmall.trans (by decide))
        rw [hword]
        refine .of_iff ?_ fun hlarge => absurd hsmall (not_lt.mpr hlarge)
        rw [hvalue]
        have hmin : n.minFac ≠ 2 := fun htwo => by
          have hdvd := n.minFac_dvd
          rw [htwo] at hdvd
          omega
        have htwo : 2 ≤ n.minFac := (Nat.minFac_prime hone).two_le
        exact noDivisorFrom_iff (by omega) hodd rfl (by decide) (by omega)
      · next hlarge =>
        rw [hbits, not_lt] at hlarge
        obtain ⟨d, hd, hdodd, hsplit, htwos⟩ := minusOne_split hx (by omega) hodd
        refine (millerRabin_yields hA hexhaust hx (by omega) hd htwos attempts _ s).mono ?_
        rintro ⟨b, s'⟩ ⟨drawn, hdrawn, hverdict⟩
        have hbounds := hdrawn.bounds hx h.positive
        refine ⟨fun hprime => hverdict.passed.mpr fun w hw hne => ?_,
          fun hsmall => absurd hsmall (not_lt.mpr hlarge),
          fun _ _ => ⟨drawn, hdrawn, fun e j he hj => ?_⟩⟩
        · obtain ⟨-, hnonneg, hlt⟩ := hbounds w hw
          refine strong_of_prime hprime (lt_of_le_of_ne hnonneg hne.symm) hlt ?_
          rw [← Nat.cast_one, ← Nat.cast_sub hpos, hsplit]
          push_cast
          rfl
        · obtain ⟨rfl, rfl⟩ := odd_mul_two_pow_unique hdodd he (hsplit.symm.trans hj)
          exact hverdict

/-- The test under any thresholds, with any stream.  Arguments that it is not
defined for are refused; for others it does not fail, and what it answers never
rejects a prime, is exact for small numbers, and is the verdict of the witnesses
for large ones. -/
theorem isPrime_correct (t : Thresholds) (depth attempts : Nat) {x : Integer} (hx : x.Canonical)
    (p : Float) (s : σ) :
    (x.toInt ≤ 0 ∨ p.isNaN = true ∨ p ≤ 0 → ∃ reason,
      (isPrime (.ofThresholds t depth) attempts x p).run s =
        .failure (.invalidArgument reason)) ∧
    (0 < x.toInt → p.isNaN = false → ¬ p ≤ 0 →
      (∀ e, (isPrime (.ofThresholds t depth) attempts x p).run s ≠ .failure e) ∧
      ∀ b s', (isPrime (.ofThresholds t depth) attempts x p).run s = .value (b, s') →
        Answer attempts x p x.toInt.toNat s s' b) := by
  constructor
  · intro hbad
    have hbad : ¬ Testable x.toInt p := by
      rintro ⟨hpos, hnumber, hchance⟩
      obtain h | h | h := hbad
      · omega
      · exact Bool.false_ne_true (hnumber.symm.trans h)
      · exact hchance h
    obtain ⟨reason, h⟩ := isPrime_invalid (σ := σ) hx.denotes hbad
    exact ⟨reason, h _ _ s⟩
  · intro hpos hnumber hchance
    have hnat := hx.denotes.toNat hpos.le
    have htestable : Testable (x.toInt.toNat : Int) p := ⟨by omega, hnumber, hchance⟩
    have h := isPrime_yields (Arithmetic.ofThresholds_exact t depth) trivial hnat htestable
      attempts s
    rw [yields_unfailing] at h
    exact ⟨h.1, fun b s' hrun => h.2 (b, s') hrun⟩

/-- A number of 21 bits passes the one round that it is put to. -/
theorem isPrime_correct_one_round :
    Integer.Canonical (.ofNat 1048583) ∧ Testable 1048583 0.5 ∧
      (isPrime (.ofThresholds .default 2) 100 (.ofNat 1048583) 0.5).run (⟨0⟩ : Generator) =
        .value (true, ⟨6736625987792804572⟩) ∧
      Answer 100 (.ofNat 1048583) 0.5 1048583 (⟨0⟩ : Generator) ⟨6736625987792804572⟩ true := by
  have hx : (Integer.ofNat 1048583).Denotes 1048583 := denotes_ofNat 1048583
  have htestable : Testable 1048583 0.5 := ⟨by decide, by decide, by decide⟩
  have hrun : (isPrime (.ofThresholds .default 2) 100 (.ofNat 1048583) 0.5).run
      (⟨0⟩ : Generator) = .value (true, ⟨6736625987792804572⟩) := by
    decide +kernel
  have h := isPrime_correct .default 2 100 hx.canonical 0.5 (⟨0⟩ : Generator)
  rw [hx.toInt] at h
  obtain ⟨-, hanswer⟩ := h.2 (by decide) htestable.number htestable.chance
  exact ⟨hx.canonical, htestable, hrun, hanswer true _ hrun⟩

end Multiprecision.NumberTheory
