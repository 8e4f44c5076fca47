import Mathlib
import Multiprecision.Proofs.Quotient.Newton

/-!
# Multiprecision.Proofs.Quotient.Precision

How good the reciprocal of a division is.  An approximation `x` of precision
`p` is looked at as the number `y = x / 2^p` near `1 / ρ`, with `ρ` the divisor
as a fraction from one half to one, and its quality is the residual `1 - ρ·y`:

* `refinement_residual` — a step squares the residual, and its truncation adds
  no more than one unit in the last place;
* `near_refinement`, `near_refinements` — so three units are kept from step to
  step, on a schedule that falls short of doubling by four bits;
* `reciprocal_quotient_near` — the last step leaves two, and with the guard
  bits the quotient is off by one at most;
* `newton_corrects_once`, `newton_ends` — so one correction is enough.
-/

namespace Multiprecision.Quotient

open Integer

variable {D bits precision : Nat}

/-! ## The schedule -/

/-- The next precision, and those after it. -/
theorem schedule_of_lt {current : Nat} (hfour : 4 < current) (hlt : current < precision) :
    schedule precision current =
      nextPrecision precision current :: schedule precision (nextPrecision precision current) := by
  rw [schedule, dif_pos ⟨hfour, hlt⟩]

theorem schedule_self (precision : Nat) : schedule precision precision = [] := by
  rw [schedule, dif_neg (fun h => absurd h.2 (lt_irrefl _))]

/-- The next precision is larger, not past the one asked for, and at least four
bits short of twice the last. -/
theorem nextPrecision_spec {current : Nat} (hfour : 4 < current) (hlt : current < precision) :
    current < nextPrecision precision current ∧ nextPrecision precision current ≤ precision ∧
      nextPrecision precision current + 4 ≤ 2 * current := by
  simp only [nextPrecision, guardBits]
  omega

/-- What holds of the precision of a schedule's start and is passed on from each
precision to the next holds at the end, which is where the schedule leads. -/
theorem schedule_induction {P : Nat → List Nat → Prop} (hend : P precision [])
    (hstep : ∀ current, 4 < current → current < precision →
      P (nextPrecision precision current) (schedule precision (nextPrecision precision current)) →
      P current (nextPrecision precision current ::
        schedule precision (nextPrecision precision current)))
    {current : Nat} (hfour : 4 < current) (hle : current ≤ precision) :
    P current (schedule precision current) := by
  induction hn : precision - current using Nat.strong_induction_on generalizing current with
  | _ n ih =>
    rcases hle.eq_or_lt with rfl | hlt
    · rwa [schedule_self]
    · obtain ⟨hgrow, hnext, -⟩ := nextPrecision_spec hfour hlt
      rw [schedule_of_lt hfour hlt]
      exact hstep current hfour hlt (ih _ (by omega) (hfour.trans hgrow) hnext rfl)

/-- A schedule ends at its precision. -/
theorem getLast_schedule {current : Nat} (hfour : 4 < current) (hle : current ≤ precision) :
    (current :: schedule precision current).getLast (List.cons_ne_nil _ _) = precision := by
  refine schedule_induction (P := fun c l => (c :: l).getLast (List.cons_ne_nil _ _) = precision)
    rfl (fun c _ _ ih => ?_) hfour hle
  rwa [List.getLast_cons (List.cons_ne_nil _ _)]

/-- Each precision of a schedule is the next one of that before it, and greater. -/
theorem isChain_schedule {current : Nat} (hfour : 4 < current) (hle : current ≤ precision) :
    (current :: schedule precision current).IsChain
      fun a b => b = nextPrecision precision a ∧ a < b := by
  refine schedule_induction (P := fun c l => (c :: l).IsChain
    fun a b => b = nextPrecision precision a ∧ a < b) (.singleton _) (fun c h4 hlt ih => ?_)
    hfour hle
  exact .cons_cons ⟨rfl, (nextPrecision_spec h4 hlt).1⟩ ih

/-! ## The divisor as a fraction -/

/-- Units of higher precisions are smaller. -/
theorem unit_le {m n : Nat} (h : m ≤ n) : (1 / 2 ^ n : ℚ) ≤ 1 / 2 ^ m := by
  gcongr
  exact one_le_two

/-- The top bits of the divisor as a fraction. -/
def topFraction (D bits precision : Nat) : ℚ := topBitsOf D bits precision / 2 ^ precision

/-- Top bits are a quotient by a power of two, for a long divisor and for a
short one. -/
theorem topBitsOf_eq (D bits precision : Nat) :
    topBitsOf D bits precision = D * 2 ^ precision / 2 ^ bits := by
  rw [topBitsOf]
  split
  · next hle =>
    nth_rewrite 2 [← Nat.sub_add_cancel hle]
    rw [pow_add, Nat.mul_div_mul_right _ _ (Nat.two_pow_pos _)]
  · next hlt =>
    have hsum : precision = precision - bits + bits := by omega
    nth_rewrite 2 [hsum]
    rw [pow_add, ← Nat.mul_assoc, Nat.mul_div_cancel _ (Nat.two_pow_pos _)]

/-- The top bits miss less than one unit of the divisor. -/
theorem topFraction_near (D bits precision : Nat) :
    topFraction D bits precision ≤ D / 2 ^ bits ∧
      (D / 2 ^ bits : ℚ) < topFraction D bits precision + 1 / 2 ^ precision := by
  have hunit : (0 : ℚ) < 2 ^ precision := by positivity
  have hscale : (0 : ℚ) < 2 ^ bits := by positivity
  have hlow := Nat.div_mul_le_self (D * 2 ^ precision) (2 ^ bits)
  have hhigh := Nat.lt_div_mul_add (a := D * 2 ^ precision) (Nat.two_pow_pos bits)
  rw [← topBitsOf_eq] at hlow hhigh
  rw [topFraction, ← add_div]
  constructor
  · rw [div_le_div_iff₀ hunit hscale]
    exact_mod_cast hlow
  · rw [div_lt_div_iff₀ hscale hunit, add_mul, one_mul]
    exact_mod_cast hhigh

/-- Top bits of two precisions differ by less than a unit of the lower one. -/
theorem topFraction_sub_le (D bits : Nat) {source target : Nat} (hle : source ≤ target) :
    |topFraction D bits target - topFraction D bits source| ≤ 1 / 2 ^ source := by
  obtain ⟨hlow, hhigh⟩ := topFraction_near D bits source
  obtain ⟨hlow', hhigh'⟩ := topFraction_near D bits target
  have hunits := unit_le hle
  rw [abs_le]
  constructor <;> linarith

theorem topFraction_le_one (hlt : D < 2 ^ bits) (precision : Nat) :
    topFraction D bits precision ≤ 1 := by
  refine (topFraction_near D bits precision).1.trans ?_
  rw [div_le_one (by positivity)]
  exact_mod_cast hlt.le

/-- The leading bits are a fraction of at least one half. -/
theorem half_le_topFraction (hbits : 2 ^ bits ≤ 2 * D) (hone : 1 ≤ precision) :
    1 / 2 ≤ topFraction D bits precision := by
  have htop : 2 ^ (precision - 1) ≤ topBitsOf D bits precision := by
    rw [topBitsOf_eq, Nat.le_div_iff_mul_le (Nat.two_pow_pos _)]
    calc 2 ^ (precision - 1) * 2 ^ bits ≤ 2 ^ (precision - 1) * (2 * D) :=
          Nat.mul_le_mul_left _ hbits
      _ = D * 2 ^ precision := by
          rw [← Nat.sub_add_cancel hone, pow_succ, Nat.add_sub_cancel]
          ring
  rw [topFraction, div_le_div_iff₀ two_pos (by positivity), one_mul]
  calc (2 : ℚ) ^ precision = 2 ^ (precision - 1) * 2 := by rw [← pow_succ, Nat.sub_add_cancel hone]
    _ ≤ topBitsOf D bits precision * 2 := by gcongr; exact_mod_cast htop

/-! ## Residuals -/

/-- A residual for another fraction nearby. -/
theorem residual_of_near {ρ ρ' y ε δ : ℚ} (hhalf : 1 / 2 ≤ ρ) (hresidual : |1 - ρ * y| ≤ ε)
    (hnear : |ρ' - ρ| ≤ δ) : |1 - ρ' * y| ≤ ε + 2 * (1 + ε) * δ := by
  have hy : |y| ≤ 2 * (1 + ε) := by
    have hproduct : |ρ * y| ≤ 1 + ε := by
      rw [abs_le] at hresidual ⊢
      constructor <;> linarith
    rw [abs_mul, abs_of_pos (by linarith)] at hproduct
    nlinarith [abs_nonneg y]
  calc |1 - ρ' * y| = |(1 - ρ * y) - (ρ' - ρ) * y| := by ring_nf
    _ ≤ |1 - ρ * y| + |(ρ' - ρ) * y| := abs_sub _ _
    _ = |1 - ρ * y| + |ρ' - ρ| * |y| := by rw [abs_mul]
    _ ≤ ε + δ * (2 * (1 + ε)) := by gcongr; exact (abs_nonneg _).trans hnear
    _ = ε + 2 * (1 + ε) * δ := by ring

/-- Cutting a quotient off changes it by at most one. -/
theorem abs_tdiv_sub_le (a : Int) {b : Int} (hb : 0 < b) : |(a.tdiv b : ℚ) - a / b| ≤ 1 := by
  have hsum := Int.mul_tdiv_add_tmod a b
  have hsmall : |a.tmod b| ≤ b := by
    rw [Int.abs_eq_natAbs, Int.natAbs_tmod]
    have := Nat.mod_lt a.natAbs (Int.natAbs_pos.mpr hb.ne')
    omega
  have hposq : (0 : ℚ) < b := by exact_mod_cast hb
  have hq : (a : ℚ) = b * a.tdiv b + a.tmod b := by exact_mod_cast hsum.symm
  have heq : (a.tdiv b : ℚ) - a / b = -(a.tmod b / b) := by
    rw [hq]
    field_simp
    ring
  rw [heq, abs_neg, abs_div, abs_of_pos hposq, div_le_one hposq]
  exact_mod_cast hsmall

/-- A step squares the residual at its target, and its truncation adds no more
than a unit. -/
theorem refinement_residual (hlt : D < 2 ^ bits) (x : Int) {source target : Nat}
    (hle : source ≤ target) :
    |1 - topFraction D bits target * (refinement D bits x source target / 2 ^ target)| ≤
      (1 - topFraction D bits target * (x / 2 ^ source)) ^ 2 + 1 / 2 ^ target := by
  set T := topBitsOf D bits target
  set X := x * 2 ^ (target - source)
  set A : ℚ := 2 ^ target
  have hA : 0 < A := by positivity
  have hT : topFraction D bits target = T / A := rfl
  have hscaled : (x / 2 ^ source : ℚ) = X / A := by
    rw [div_eq_div_iff (by positivity) hA.ne', Int.cast_mul, mul_assoc]
    congr 1
    rw [Int.cast_pow, Int.cast_ofNat, ← pow_add, Nat.sub_add_cancel hle]
  -- What truncation leaves out of the correction.
  set w := (X * (2 ^ (2 * target) - T * X)).tdiv (2 ^ (2 * target))
  obtain ⟨θ, hθ, hw⟩ : ∃ θ : ℚ, |θ| ≤ 1 ∧ (w : ℚ) = X * (1 - T * X / A ^ 2) + θ := by
    have hcut := abs_tdiv_sub_le (X * (2 ^ (2 * target) - T * X))
      (show (0 : Int) < 2 ^ (2 * target) by positivity)
    have hsquare : (2 : ℚ) ^ (2 * target) = A ^ 2 := by rw [Nat.mul_comm, pow_mul]
    push_cast [hsquare] at hcut
    refine ⟨_, hcut, ?_⟩
    field_simp
    ring
  have hvalue : (refinement D bits x source target : ℚ) = X + w := by
    rw [← Int.cast_add]
    rfl
  have hidentity : 1 - T / A * ((X + w) / A) = (1 - T / A * (X / A)) ^ 2 - T / A * θ / A := by
    rw [hw]
    field_simp
    ring
  have hunit : |T / A * θ / A| ≤ 1 / A := by
    rw [abs_div, abs_of_pos hA]
    gcongr
    rw [abs_mul, ← hT, abs_of_nonneg (by rw [hT]; positivity)]
    exact mul_le_one₀ (topFraction_le_one hlt target) (abs_nonneg θ) hθ
  rw [hvalue, hscaled, hT, hidentity]
  calc |(1 - T / A * (X / A)) ^ 2 - T / A * θ / A|
      ≤ |(1 - T / A * (X / A)) ^ 2| + |T / A * θ / A| := abs_sub _ _
    _ ≤ (1 - T / A * (X / A)) ^ 2 + 1 / A := by rw [abs_of_nonneg (sq_nonneg _)]; gcongr

/-! ## Three units -/

/-- The approximation `x` of precision `precision` has a residual of three units. -/
def Near (D bits precision : Nat) (x : Int) : Prop :=
  |1 - topFraction D bits precision * (x / 2 ^ precision)| ≤ 3 * (1 / 2 ^ precision)

/-- The seed is rounded down from an exact quotient. -/
theorem near_seed (hlt : D < 2 ^ bits) (htop : 0 < topBitsOf D bits precision) :
    Near D bits precision (2 ^ (2 * precision) / topBitsOf D bits precision : Nat) := by
  have hle := topFraction_le_one hlt precision
  set T := topBitsOf D bits precision
  set q := 2 ^ (2 * precision) / T
  set A : ℚ := 2 ^ precision
  have hA : 0 < A := by positivity
  have hT : topFraction D bits precision = T / A := rfl
  have hsquare : ((2 ^ (2 * precision) : Nat) : ℚ) = A ^ 2 := by
    rw [Nat.cast_pow, Nat.cast_ofNat, Nat.mul_comm, pow_mul]
  have hlow : (T : ℚ) * q ≤ A ^ 2 := by
    rw [← hsquare]
    exact_mod_cast Nat.mul_div_le _ _
  have hhigh : A ^ 2 < T * q + T := by
    rw [← hsquare]
    exact_mod_cast Nat.lt_mul_div_succ (2 ^ (2 * precision)) htop
  have hresidual : 1 - T / A * (q / A) = (A ^ 2 - T * q) / A ^ 2 := by
    field_simp
  have hnonneg : 0 ≤ (A ^ 2 - T * q) / A ^ 2 := div_nonneg (sub_nonneg.mpr hlow) (by positivity)
  rw [Near, hT, Int.cast_natCast, hresidual, abs_of_nonneg hnonneg]
  rw [hT, div_le_one hA] at hle
  calc (A ^ 2 - T * q) / A ^ 2 ≤ A / A ^ 2 := by gcongr; linarith
    _ = 1 / A := by field_simp
    _ ≤ 3 * (1 / A) := by linarith [one_div_pos.mpr hA]

section Steps

variable (hbits : 2 ^ bits ≤ 2 * D) (hlt : D < 2 ^ bits)
include hbits hlt

/-- A step that does not quite double the precision keeps three units: the more
of the divisor that it looks at costs two, so it squares five and a half, and
the square is a sixteenth of that of the target's units. -/
theorem near_refinement {x : Int} {source target : Nat} (hseed : 16 ≤ source)
    (hle : source ≤ target) (hdouble : target + 4 ≤ 2 * source) (h : Near D bits source x) :
    Near D bits target (refinement D bits x source target) := by
  set δ : ℚ := 1 / 2 ^ source with hδ
  set u : ℚ := 1 / 2 ^ target with hu
  have hδpos : 0 < δ := by positivity
  have hupos : 0 < u := by positivity
  have hδle : δ ≤ 1 / 2 ^ 16 := unit_le hseed
  have hsquare : 16 * δ ^ 2 ≤ u := by
    have hpow : (2 : ℚ) ^ target * 2 ^ 4 ≤ (2 ^ source) ^ 2 := by
      rw [← pow_add, ← pow_mul, Nat.mul_comm source]
      gcongr
      exact one_le_two
    rw [hδ, hu, div_pow, one_pow, mul_one_div, div_le_div_iff₀ (by positivity) (by positivity)]
    linarith
  have hmoved := residual_of_near (half_le_topFraction hbits (by omega)) h
    (topFraction_sub_le D bits hle)
  have hbound : |1 - topFraction D bits target * (x / 2 ^ source)| ≤ 11 / 2 * δ := by
    refine hmoved.trans ?_
    nlinarith
  calc |1 - topFraction D bits target * (refinement D bits x source target / 2 ^ target)|
      ≤ (1 - topFraction D bits target * (x / 2 ^ source)) ^ 2 + u := refinement_residual hlt x hle
    _ = |1 - topFraction D bits target * (x / 2 ^ source)| ^ 2 + u := by rw [sq_abs]
    _ ≤ (11 / 2 * δ) ^ 2 + u := by gcongr
    _ ≤ 3 * u := by linarith

/-- So the steps of a schedule keep them up to its end. -/
theorem near_refinements {x : Int} {source : Nat} (hseed : 16 ≤ source)
    (hle : source ≤ precision) (h : Near D bits source x) :
    Near D bits precision (refinements D bits (schedule precision source) source x) := by
  refine schedule_induction (P := fun c l => ∀ x, 16 ≤ c → Near D bits c x →
    Near D bits precision (refinements D bits l c x)) (fun x _ h => h)
    (fun c h4 hlt' ih x hc h => ?_) (by omega) hle x hseed h
  obtain ⟨hgrow, -, hdouble⟩ := nextPrecision_spec h4 hlt'
  exact ih _ (hc.trans hgrow.le) (near_refinement hbits hlt hc hgrow.le hdouble h)

/-! ## The last step -/

omit hbits hlt in
/-- The last step starts from what the others made. -/
theorem refinements_concat (precisions : List Nat) (target source : Nat) (x : Int) :
    refinements D bits (precisions ++ [target]) source x =
      refinement D bits (refinements D bits precisions source x)
        ((source :: precisions).getLast (List.cons_ne_nil _ _)) target := by
  induction precisions generalizing source x with
  | nil => rfl
  | cons next rest ih =>
    rw [List.cons_append, refinements, ih, refinements, List.getLast_cons (List.cons_ne_nil _ _)]

/-- The last step goes over the precision that is already reached and leaves two
units. -/
theorem residual_reciprocalOf (hseed : 16 ≤ precision) :
    |1 - topFraction D bits precision * (reciprocalOf D bits precision / 2 ^ precision)| ≤
      2 * (1 / 2 ^ precision) := by
  have htop : 0 < topBitsOf D bits 16 := by
    rw [topBitsOf_eq]
    exact Nat.div_pos (by omega) (Nat.two_pow_pos bits)
  have hfirst : min precision seedBits = 16 := min_eq_right hseed
  have hnear := near_refinements hbits hlt le_rfl hseed (near_seed hlt htop)
  rw [reciprocalOf, hfirst, refinements_concat, getLast_schedule (by omega) hseed]
  set x := refinements D bits (schedule precision 16) 16 _
  set u : ℚ := 1 / 2 ^ precision
  have hule : u ≤ 1 / 2 ^ 16 := unit_le hseed
  have hupos : 0 < u := by positivity
  have hstep := refinement_residual hlt x (le_refl precision)
  rw [← sq_abs] at hstep
  calc _ ≤ |1 - topFraction D bits precision * (x / 2 ^ precision)| ^ 2 + u := hstep
    _ ≤ (3 * u) ^ 2 + u := by gcongr; exact hnear
    _ ≤ 2 * u := by nlinarith

/-- The whole divisor misses its top bits by less than a unit, which adds three. -/
theorem residual_whole (hseed : 16 ≤ precision) :
    |1 - D / 2 ^ bits * (reciprocalOf D bits precision / 2 ^ precision : ℚ)| ≤
      5 * (1 / 2 ^ precision) := by
  have hresidual := residual_reciprocalOf hbits hlt hseed
  obtain ⟨hlow, hhigh⟩ := topFraction_near D bits precision
  have hule : (1 / 2 ^ precision : ℚ) ≤ 1 / 2 ^ 16 := unit_le hseed
  set u : ℚ := 1 / 2 ^ precision
  have hupos : 0 < u := by positivity
  have hnear : |(D / 2 ^ bits : ℚ) - topFraction D bits precision| ≤ u := by
    rw [abs_of_nonneg (by linarith)]
    linarith
  refine (residual_of_near (half_le_topFraction hbits (by omega)) hresidual hnear).trans ?_
  nlinarith

/-- The approximate reciprocal is not negative. -/
theorem reciprocalOf_nonneg (hseed : 16 ≤ precision) : 0 ≤ reciprocalOf D bits precision := by
  by_contra hneg
  have hy : (reciprocalOf D bits precision / 2 ^ precision : ℚ) ≤ 0 :=
    div_nonpos_of_nonpos_of_nonneg (by exact_mod_cast (not_le.mp hneg).le) (by positivity)
  have hproduct : (D / 2 ^ bits * (reciprocalOf D bits precision / 2 ^ precision) : ℚ) ≤ 0 :=
    mul_nonpos_of_nonneg_of_nonpos (by positivity) hy
  have hone := (le_abs_self _).trans (residual_whole hbits hlt hseed)
  have hunit : (1 / 2 ^ precision : ℚ) ≤ 1 / 2 ^ 16 := unit_le hseed
  linarith

end Steps

/-! ## The quotient -/

/-- The length of a number in bits is not more than it needs. -/
theorem two_pow_size_le (hD : 0 < D) : 2 ^ D.size ≤ 2 * D := by
  have hsize := Nat.size_pos.mpr hD
  have hlow : 2 ^ (D.size - 1) ≤ D := Nat.lt_size.mp (Nat.sub_lt hsize one_pos)
  calc 2 ^ D.size = 2 * 2 ^ (D.size - 1) := by rw [← pow_succ', Nat.sub_add_cancel hsize]
    _ ≤ 2 * D := Nat.mul_le_mul_left 2 hlow

/-- Quotients that are less than one apart are at most one apart when rounded. -/
theorem abs_ediv_sub_le {a c : Int} {b d : Nat} (h : |(a / b : ℚ) - c / d| < 1) :
    |a / (b : Int) - c / (d : Int)| ≤ 1 := by
  rw [← Rat.floor_intCast_div_natCast a b, ← Rat.floor_intCast_div_natCast c d]
  have ha := Int.floor_le (a / b : ℚ)
  have hc := Int.floor_le (c / d : ℚ)
  have ha' := Int.lt_floor_add_one (a / b : ℚ)
  have hc' := Int.lt_floor_add_one (c / d : ℚ)
  rw [abs_lt] at h
  rw [abs_le]
  constructor
  · have hlt : (⌊(c / d : ℚ)⌋ : ℚ) < ⌊(a / b : ℚ)⌋ + 2 := by linarith
    have hlt : ⌊(c / d : ℚ)⌋ < ⌊(a / b : ℚ)⌋ + 2 := by exact_mod_cast hlt
    omega
  · have hlt : (⌊(a / b : ℚ)⌋ : ℚ) < ⌊(c / d : ℚ)⌋ + 2 := by linarith
    have hlt : ⌊(a / b : ℚ)⌋ < ⌊(c / d : ℚ)⌋ + 2 := by exact_mod_cast hlt
    omega

/-- With the guard bits the reciprocal's quotient is off by one at most. -/
theorem reciprocal_quotient_near {N : Nat} (hD : 0 < D) (hle : D ≤ N) :
    |quotientOf N D - N / D| ≤ 1 := by
  have hbits := two_pow_size_le hD
  have hlt := Nat.lt_size_self D
  have hsize : D.size ≤ N.size := Nat.size_le_size hle
  rw [quotientOf]
  set precision := N.size - D.size + 2 * guardBits with hprecision
  have hguard : precision + D.size = N.size + 16 := by
    simp only [hprecision, guardBits]
    omega
  have hseed : 16 ≤ precision := by omega
  have hwhole := residual_whole hbits hlt hseed
  have hX := reciprocalOf_nonneg hbits hlt hseed
  set X := reciprocalOf D D.size precision
  set u : ℚ := 1 / 2 ^ precision with hu
  have hsmall : (N / D : ℚ) * u ≤ 2 / 2 ^ 16 := by
    have hcount : N * 2 ^ 16 ≤ 2 * (2 ^ precision * D) := by
      calc N * 2 ^ 16 ≤ 2 ^ N.size * 2 ^ 16 := Nat.mul_le_mul_right _ (Nat.lt_size_self N).le
        _ = 2 ^ precision * 2 ^ D.size := by rw [← pow_add, ← pow_add, hguard]
        _ ≤ 2 ^ precision * (2 * D) := Nat.mul_le_mul_left _ hbits
        _ = 2 * (2 ^ precision * D) := by ring
    rw [hu, div_mul_div_comm, mul_one, div_le_div_iff₀ (by positivity) (by positivity),
      mul_comm (D : ℚ)]
    exact_mod_cast hcount
  -- Both quotients as numbers, a multiple of the residual apart.
  have hdiff : ((N * X : Int) / (2 ^ (precision + D.size) : Nat) - (N : Int) / D : ℚ) =
      -(N / D * (1 - D / 2 ^ D.size * (X / 2 ^ precision))) := by
    have hDq : (D : ℚ) ≠ 0 := by exact_mod_cast hD.ne'
    push_cast
    rw [pow_add]
    field_simp
    ring
  have hscale : ((2 ^ (precision + D.size) : Nat) : Int) = 2 ^ (precision + D.size) := by
    rw [Nat.cast_pow, Nat.cast_ofNat]
  rw [Int.tdiv_eq_ediv_of_nonneg (mul_nonneg (Int.natCast_nonneg N) hX), ← hscale]
  refine abs_ediv_sub_le ?_
  rw [hdiff, abs_neg, abs_mul, abs_of_nonneg (by positivity)]
  calc (N / D : ℚ) * |1 - D / 2 ^ D.size * (X / 2 ^ precision : ℚ)| ≤ N / D * (5 * u) := by gcongr
    _ = 5 * (N / D * u) := by ring
    _ < 1 := by linarith

/-! ## One correction -/

namespace Candidate

variable {c : Candidate} {d : Integer} {N q r : Int}

/-- There is nothing to lower if the remainder is not negative. -/
theorem lower_of_nonneg (h : Splits N D c q r) (hr : 0 ≤ r) (budget : Nat) :
    c.lower d budget = .value c := by
  have hnonneg : ¬c.remainder.isNegative = true := by
    rw [h.remainder.isNegative_iff]
    omega
  cases budget <;> rw [lower, if_neg hnonneg]

/-- There is nothing to raise if the remainder is below the divisor. -/
theorem raise_of_lt (h : Splits N D c q r) (hd : d.Denotes D) (hr : 0 ≤ r) (hlt : r < D)
    (budget : Nat) : c.raise d budget = .value c := by
  have hbelow : c.remainder.below d = true := by
    rw [h.remainder.below_iff hd]
    omega
  cases budget <;> rw [raise, if_pos hbelow]

/-- A candidate whose quotient is off by one at most is corrected once at most,
in either direction. -/
theorem correct_near (hd : d.Denotes D) (hD : 0 < D) (h : Splits N D c q r)
    (hnear : |q - N / D| ≤ 1) {budget : Nat} (hbudget : 1 ≤ budget) :
    ∃ c', c.correct d budget = .value c' ∧ c'.corrections ≤ c.corrections + 1 ∧
      c'.quotient.Denotes (N / D) ∧ c'.remainder.Denotes (N % D) := by
  have hsum := h.sum
  have hdivision := Int.mul_ediv_add_emod N D
  have hmod := Int.emod_nonneg N (by omega : (D : Int) ≠ 0)
  have hmod' := Int.emod_lt_of_pos N (by omega : (0 : Int) < D)
  rw [abs_le] at hnear
  obtain ⟨budget, rfl⟩ := Nat.exists_eq_add_of_le' hbudget
  rcases lt_or_ge r 0 with hneg | hnonneg
  · have hstep := h.lower_step hd (c.corrections + 1)
    have hr : 0 ≤ r + D := by nlinarith
    have hlower : c.lower d (budget + 1) =
        .value ⟨c.quotient.sub 1, c.remainder.add d, c.corrections + 1⟩ := by
      rw [lower, if_pos (h.remainder.isNegative_iff.mpr hneg), lower_of_nonneg hstep hr]
    refine ⟨_, ?_, le_rfl, hstep.exact hr (by omega)⟩
    rw [correct, hlower]
    exact raise_of_lt hstep hd hr (by omega) _
  · have hlower : c.lower d (budget + 1) = .value c := lower_of_nonneg h hnonneg _
    rcases lt_or_ge r D with hlt | hge
    · refine ⟨c, ?_, Nat.le_succ _, h.exact hnonneg hlt⟩
      rw [correct, hlower]
      exact raise_of_lt h hd hnonneg hlt _
    · have hstep := h.raise_step hd (c.corrections + 1)
      have hr : 0 ≤ r - D := by omega
      have hlt : r - D < D := by nlinarith
      have hbelow : ¬c.remainder.below d = true := by
        rw [h.remainder.below_iff hd]
        omega
      refine ⟨_, ?_, le_rfl, hstep.exact hr hlt⟩
      rw [correct, hlower]
      change c.raise d (budget + 1) = _
      rw [raise, if_neg hbelow]
      exact raise_of_lt hstep hd hr hlt _

end Candidate

/-- With a correction in the budget, a division by a reciprocal ends where its
products do. -/
theorem newton_ends {may : Endings} {multiply : Multiplier}
    (hm : multiply.ExactOn may fun _ => True) {dividend divisor : Integer} {i j : Int}
    (ha : dividend.Denotes i) (hb : divisor.Denotes j) (hj : j ≠ 0) {budget : Nat}
    (hbudget : 1 ≤ budget) (into : Integer) :
    (newton multiply budget dividend divisor into).Yields may fun (q, r) =>
      Denotes q (i.natAbs / j.natAbs : Nat) ∧ Denotes r (i.natAbs % j.natAbs : Nat) := by
  have hd := hb.abs_natAbs.trim
  have hpos := Int.natAbs_pos.mpr hj
  refine newton_of_correct ha hb hj (fun hlt => ?_) into
  refine (byReciprocal_yields hm ha.abs_natAbs hd hpos.ne').bind fun c hc => ?_
  obtain ⟨-, r, hsplits⟩ := hc
  obtain ⟨c', hcorrect, -, hexact⟩ := Candidate.correct_near hd hpos hsplits
    (reciprocal_quotient_near hpos hlt.le) hbudget
  rw [hcorrect]
  exact hexact

/-- The multiplier that always returns the product. -/
def ideal : Multiplier := fun f => .value (.ofNat f.magnitude)

/-- The multiplier of natural numbers is exact and always returns. -/
theorem ideal_exactOn : ideal.ExactOn .returning fun _ => True := fun _ _ _ => denotes_ofNat _

/-- For a dividend above the divisor the reciprocal's quotient is off by one at
most, so one correction at most follows, whichever way, and the division ends.
The precisions go from 16 bits to the one that is needed, each the next of that
before it. -/
theorem newton_corrects_once {may : Endings} {multiply : Multiplier}
    (hm : multiply.ExactOn may fun _ => True) {dividend divisor : Integer}
    (ha : dividend.Canonical) (hb : divisor.Canonical) (hpos : 0 < divisor.magnitude)
    (hlt : divisor.magnitude < dividend.magnitude) {budget : Nat} (hbudget : 1 ≤ budget)
    (into : Integer) :
    ((byReciprocal multiply dividend.abs divisor.abs.trim).Yields may fun c =>
      |c.quotient.toInt - (dividend.magnitude / divisor.magnitude : Int)| ≤ 1 ∧
        ∃ c', c.correct divisor.abs.trim budget = .value c' ∧ c'.corrections ≤ 1 ∧
          c'.quotient.Denotes (dividend.magnitude / divisor.magnitude) ∧
          c'.remainder.Denotes (dividend.magnitude % divisor.magnitude)) ∧
    ((newton multiply budget dividend divisor into).Yields may fun qr =>
      qr.1.Denotes (dividend.magnitude / divisor.magnitude) ∧
        qr.2.Denotes (dividend.magnitude % divisor.magnitude)) ∧
    ∀ precision, seedBits ≤ precision →
      (seedBits :: schedule precision seedBits).getLast (List.cons_ne_nil _ _) = precision ∧
        (seedBits :: schedule precision seedBits).IsChain
          fun a b => b = nextPrecision precision a ∧ a < b := by
  have hn := ha.denotes.abs_natAbs
  have hd := hb.denotes.abs_natAbs.trim
  rw [natAbs_toInt] at hn hd
  have hreciprocal : (byReciprocal multiply dividend.abs divisor.abs.trim).Yields may fun c =>
      |c.quotient.toInt - (dividend.magnitude / divisor.magnitude : Int)| ≤ 1 ∧
        ∃ c', c.correct divisor.abs.trim budget = .value c' ∧ c'.corrections ≤ 1 ∧
          c'.quotient.Denotes (dividend.magnitude / divisor.magnitude) ∧
          c'.remainder.Denotes (dividend.magnitude % divisor.magnitude) := by
    refine (byReciprocal_yields hm hn hd hpos.ne').mono fun c hc => ?_
    obtain ⟨hzero, r, hsplits⟩ := hc
    have hnear := reciprocal_quotient_near hpos hlt.le
    obtain ⟨c', hcorrect, hcount, hexact⟩ := Candidate.correct_near hd hpos hsplits hnear hbudget
    rw [hsplits.quotient.toInt]
    exact ⟨hnear, c', hcorrect, by omega, hexact⟩
  refine ⟨hreciprocal, ?_, fun precision hprecision => ?_⟩
  · rw [newton]
    simp only [hn.compareMagnitude_eq hd, Int.natAbs_natCast, Nat.compare_eq_gt.mpr hlt]
    refine hreciprocal.bind fun c hc => ?_
    obtain ⟨-, c', hcorrect, -, hquotient, hremainder⟩ := hc
    rw [hcorrect]
    exact ⟨hquotient.compact, hremainder.compact⟩
  · have hfour : 4 < seedBits := by decide
    exact ⟨getLast_schedule hfour hprecision, isChain_schedule hfour hprecision⟩

/-- The division of `-5·2^60` by `2^30 + 7`. -/
theorem newton_corrects_once_negative :
    Canonical ⟨true, [0, 0, 5]⟩ ∧ Canonical ⟨false, [7, 1]⟩ ∧
      0 < (⟨false, [7, 1]⟩ : Integer).magnitude ∧
      (⟨false, [7, 1]⟩ : Integer).magnitude < (⟨true, [0, 0, 5]⟩ : Integer).magnitude ∧
      ∃ q r, newton ideal 1 ⟨true, [0, 0, 5]⟩ ⟨false, [7, 1]⟩ .zero = .value (q, r) ∧
        q.toInt = 5368709085 ∧ r.toInt = 245 := by
  have ha : Canonical ⟨true, [0, 0, 5]⟩ := ⟨by simp [Digits.base], fun _ => rfl⟩
  have hb : Canonical ⟨false, [7, 1]⟩ := ⟨by simp [Digits.base], fun _ => rfl⟩
  have hpos : 0 < (⟨false, [7, 1]⟩ : Integer).magnitude := by decide
  have hlt : (⟨false, [7, 1]⟩ : Integer).magnitude < (⟨true, [0, 0, 5]⟩ : Integer).magnitude := by
    decide
  have hquotient : ((⟨true, [0, 0, 5]⟩ : Integer).magnitude /
      (⟨false, [7, 1]⟩ : Integer).magnitude : Int) = 5368709085 := by decide +kernel
  have hremainder : ((⟨true, [0, 0, 5]⟩ : Integer).magnitude %
      (⟨false, [7, 1]⟩ : Integer).magnitude : Int) = 245 := by decide +kernel
  -- The run itself is not to be computed.
  generalize (⟨true, [0, 0, 5]⟩ : Integer) = a at *
  generalize (⟨false, [7, 1]⟩ : Integer) = b at *
  obtain ⟨-, hnewton, -⟩ := newton_corrects_once ideal_exactOn ha hb hpos hlt (Nat.le_refl 1) .zero
  rw [hquotient, hremainder] at hnewton
  obtain ⟨qr, hvalue, hq, hr⟩ := Outcome.yields_returning.mp hnewton
  exact ⟨ha, hb, hpos, hlt, qr.1, qr.2, hvalue, hq.toInt, hr.toInt⟩

end Multiprecision.Quotient
