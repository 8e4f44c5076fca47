import Mathlib
import Multiprecision.Proofs.Quotient.Estimate

/-!
# Multiprecision.Proofs.Quotient.Corrections

What long division needs from its estimates, digit by digit:

* `settle_decides` — corrections run out exactly for an estimate that is further
  from the digit than they are many, in either direction;
* `longWith_decides` — so a division has a result exactly if every estimate is
  near the digit in its place;
* `longWith_add` — a result does not depend on how many corrections are allowed;
* `Truncates.reliable` — estimates cut from numbers with a small relative error
  need one.

The digits are known beforehand: the remainder that a digit is found from is what
the higher places of the dividend leave modulo a multiple of the divisor
(`remainderAt`), whatever has been estimated before it.
-/

namespace Multiprecision.Quotient

open Digits Integer

variable {α β : Type} {P Q : Prop}
variable {remainder divisor multiple : Integer} {A R D left allowed : Nat} {q d : Digit}

/-! ## Running out of corrections -/

/-- The computation has a result if `P` holds, and is out of corrections if not. -/
def Decides (P : Prop) (x : Except Error α) : Prop :=
  (P → ∃ a, x = .ok a) ∧ (¬P → x = .error tooManyCorrections)

/-- Two checks in turn succeed exactly if both do. -/
theorem Decides.bind {x : Except Error α} {f : α → Except Error β} (hx : Decides P x)
    (hf : ∀ a, x = .ok a → Decides Q (f a)) : Decides (P ∧ Q) (x >>= f) := by
  by_cases hP : P
  · obtain ⟨a, rfl⟩ := hx.1 hP
    have ha := hf a rfl
    exact ⟨fun h => ha.1 h.2, fun h => ha.2 fun hQ => h ⟨hP, hQ⟩⟩
  · rw [hx.2 hP]
    exact ⟨fun h => absurd h.1 hP, fun _ => rfl⟩

/-- What cannot fail after a check decides nothing. -/
theorem Decides.bind_ok {x : Except Error α} {f : α → Except Error β} (hx : Decides P x)
    (hf : ∀ a, ∃ b, f a = .ok b) : Decides P (x >>= f) := by
  by_cases hP : P
  · obtain ⟨a, rfl⟩ := hx.1 hP
    exact ⟨fun _ => hf a, fun h => absurd hP h⟩
  · rw [hx.2 hP]
    exact ⟨fun h => absurd h hP, fun _ => rfl⟩

/-- With no places left to look at there is nothing to run out of. -/
theorem decides_none {p : Nat → Prop} (a : α) : Decides (∀ place < 0, p place) (.ok a) :=
  ⟨fun _ => ⟨a, rfl⟩, fun h => absurd (fun _ hlt => absurd hlt (Nat.not_lt_zero _)) h⟩

/-- An estimate that is further above the digit is lowered until no correction is
left. -/
theorem lowerEstimate_runs_out (hr : remainder.Denotes R) (hd : divisor.Denotes D) (hpos : 0 < D)
    (hm : multiple.Denotes ((q.toNat * D : Nat) : Int)) (h : R / D + left < q.toNat) :
    lowerEstimate remainder divisor left q multiple = .error tooManyCorrections := by
  have hbelow {q : Digit} {multiple : Integer} (hm : multiple.Denotes ((q.toNat * D : Nat) : Int))
      (h : R / D < q.toNat) : remainder.below multiple = true := by
    rw [hr.below_iff hm, Int.natAbs_natCast, Int.natAbs_natCast]
    exact (Nat.div_lt_iff_lt_mul hpos).mp h
  induction left generalizing q multiple with
  | zero => rw [lowerEstimate, if_pos (hbelow hm h)]
  | succ left ih =>
    have hone : (1 : Digit).toNat ≤ q.toNat := Nat.one_le_of_lt h
    have hpred : (q - 1).toNat = q.toNat - 1 := UInt32.toNat_sub_of_le _ _ hone
    have hle : D ≤ q.toNat * D := Nat.le_mul_of_pos_left D hone
    have hdiff := hm.subSmaller hd (Int.natCast_nonneg D) (by exact_mod_cast hle)
    rw [← Nat.cast_sub hle, ← Nat.sub_one_mul, ← hpred] at hdiff
    rw [lowerEstimate, if_pos (hbelow hm (by omega))]
    exact ih hdiff (by omega)

/-- A remainder of more divisors than corrections are left is an error. -/
theorem raiseEstimate_runs_out (hr : remainder.Denotes R) (hd : divisor.Denotes D)
    (h : (left + 1) * D ≤ R) :
    raiseEstimate divisor left q remainder = .error tooManyCorrections := by
  have hnot {remainder : Integer} {R : Nat} (hr : remainder.Denotes R) (hle : D ≤ R) :
      ¬remainder.below divisor = true := by
    rw [hr.below_iff hd, Int.natAbs_natCast, Int.natAbs_natCast]
    omega
  induction left generalizing q remainder R with
  | zero => rw [raiseEstimate, if_neg (hnot hr (by omega))]
  | succ left ih =>
    rw [Nat.succ_mul] at h
    have hle : D ≤ R := by omega
    have hdiff := hr.subSmaller hd (Int.natCast_nonneg D) (by exact_mod_cast hle)
    rw [← Nat.cast_sub hle] at hdiff
    rw [raiseEstimate, if_neg (hnot hr hle)]
    exact ih hdiff (by omega)

/-- A multiple that is not too large needs no correction. -/
theorem lowerEstimate_of_not_below (h : ¬remainder.below multiple = true) :
    lowerEstimate remainder divisor left q multiple = .ok (left, q, multiple) := by
  cases left <;> rw [lowerEstimate, if_neg h]

/-- A remainder below the divisor needs no correction. -/
theorem raiseEstimate_of_below (h : remainder.below divisor = true) :
    raiseEstimate divisor left q remainder = .ok (q, remainder) := by
  cases left <;> rw [raiseEstimate, if_pos h]

/-- An estimate is out of reach above or below. -/
theorem not_within_iff {n exact : Nat} :
    ¬Within allowed n exact ↔ exact + allowed < n ∨ n + allowed < exact := by
  rw [Within]
  omega

/-- A digit takes as many corrections as its estimate is off. -/
theorem settle_decides (hr : remainder.Denotes R) (hd : divisor.Denotes D) (hpos : 0 < D)
    (allowed : Nat) (q : Digit) :
    Decides (Within allowed q.toNat (R / D)) (settle allowed remainder divisor q) := by
  refine ⟨settle_succeeds hr hd hpos, fun hfar => ?_⟩
  rw [not_within_iff] at hfar
  have hroom {n : Nat} (h : n + allowed < R / D) : (allowed + 1) * D ≤ R - n * D := by
    have hle : (n + allowed + 1) * D ≤ R := (Nat.le_div_iff_mul_le hpos).mp h
    have hsplit : (n + allowed + 1) * D = n * D + (allowed + 1) * D := by ring
    omega
  rw [settle]
  split
  · next hzero =>
    rw [hzero, UInt32.toNat_zero] at hfar
    have hle := hroom (hfar.resolve_left (Nat.not_lt_zero _))
    rw [Nat.zero_mul, Nat.sub_zero] at hle
    exact raiseEstimate_runs_out hr hd hle
  · have hmultiple := hd.mulWord q
    rw [Int.mul_comm, ← Nat.cast_mul] at hmultiple
    rcases hfar with habove | hbelow
    · rw [lowerEstimate_runs_out hr hd hpos hmultiple habove]
      rfl
    · have hle : q.toNat ≤ R / D := (Nat.le_add_right _ _).trans hbelow.le
      have hfit : q.toNat * D ≤ R := (Nat.le_div_iff_mul_le hpos).mp hle
      have hdiff := hr.subSmaller hmultiple (Int.natCast_nonneg _) (by exact_mod_cast hfit)
      rw [← Nat.cast_sub hfit] at hdiff
      have hnot : ¬remainder.below (divisor.mulWord q) = true := by
        rw [hr.below_iff hmultiple, Int.natAbs_natCast, Int.natAbs_natCast, not_lt]
        exact hfit
      rw [lowerEstimate_of_not_below hnot]
      exact raiseEstimate_runs_out hdiff hd (hroom hbelow)

/-! ## The digits beforehand -/

/-- What the digit in a place is found from, in the division of `A` by `D`. -/
def remainderAt (A D place : Nat) : Nat := A / base ^ place % (base * D)

/-- The digit in a place of the quotient of `A` by `D`. -/
def digitAt (A D place : Nat) : Nat := A / D / base ^ place % base

/-- A partial remainder divided by the divisor is a digit of the quotient. -/
theorem remainderAt_div (A D place : Nat) : remainderAt A D place / D = digitAt A D place := by
  rw [remainderAt, digitAt, Nat.mod_mul_left_div_self, Nat.div_right_comm]

/-- What that leaves is the remainder of all digits so far. -/
theorem remainderAt_mod (A D place : Nat) :
    remainderAt A D place % D = A / base ^ place % D := by
  rw [remainderAt, Nat.mod_mul_left_mod]

/-- What is left in the place above, with the next digit of the dividend. -/
theorem remainderAt_eq (A D place : Nat) :
    remainderAt A D place = A / base ^ (place + 1) % D * base + A / base ^ place % base := by
  rw [remainderAt, Nat.mod_mul, pow_succ, ← Nat.div_div_eq_div_mul]
  ring

/-! ## All digits -/

variable {e : Nat → Digit}

/-- The lower digits `lower` of the dividend go on where the higher ones have left
their remainder. -/
theorem divideDigits_decides (hd : divisor.Denotes D) (hpos : 0 < D) (allowed : Nat)
    {lower : List Digit} (qs : List Digit) (hlower : InRange lower)
    (hvalue : value lower.reverse = A % base ^ lower.length)
    (hr : remainder.Denotes (A / base ^ lower.length % D : Nat)) :
    Decides (∀ place < lower.length, Within allowed (e place).toNat (digitAt A D place))
      (divideDigits allowed (fun place _ => e place) divisor lower remainder qs) := by
  induction lower generalizing remainder qs with
  | nil => exact decides_none _
  | cons d lower ih =>
    obtain ⟨hdr, hlower⟩ := inRange_cons.mp hlower
    rw [List.reverse_cons, value_append, List.length_reverse, value_cons, value_nil, Nat.mul_zero,
      Nat.add_zero, List.length_cons, Nat.mod_pow_succ] at hvalue
    have hpos' : 0 < base ^ lower.length := Nat.pow_pos base_pos
    have hlow : value lower.reverse < base ^ lower.length := by
      rw [← List.length_reverse]
      exact value_lt fun d h => hlower d (List.mem_reverse.mp h)
    -- The sum determines the digit and what lies below it.
    obtain ⟨hdigit, hrest⟩ := (Nat.div_mod_unique hpos').mpr ⟨hvalue, hlow⟩
    rw [Nat.add_mul_div_left _ _ hpos', Nat.div_eq_of_lt (Nat.mod_lt A hpos'), Nat.zero_add]
      at hdigit
    rw [Nat.add_mul_mod_self_left, Nat.mod_mod] at hrest
    have hpull := pull_denotes hr hdr
    rw [List.length_cons, ← hdigit, ← remainderAt_eq] at hpull
    have hroom : remainderAt A D lower.length < base * D :=
      Nat.mod_lt _ (Nat.mul_pos base_pos hpos)
    have hsettle := settle_decides hpull hd hpos allowed (e lower.length)
    rw [remainderAt_div] at hsettle
    rw [divideDigits, List.length_cons, Nat.forall_lt_succ_right, and_comm]
    refine hsettle.bind fun p hp => ?_
    obtain ⟨R', hR', heq, hlt, -⟩ := settle_ensures hpull hd hroom _ p hp
    have hmod : R' = A / base ^ lower.length % D := by
      rw [← remainderAt_mod, ← heq, Nat.add_comm, Nat.add_mul_mod_self_right, Nat.mod_eq_of_lt hlt]
    exact ih (p.1 :: qs) hlower hrest.symm (hmod ▸ hR')

/-- The number of places whose digits are estimated: none if the dividend is below
the divisor. -/
def estimated (dividend divisor : Integer) : Nat :=
  if dividend.below divisor then 0 else dividend.digitCount - divisor.digitCount + 1

/-- A division has a result exactly if every estimate is near its digit. -/
theorem longWith_decides {dividend divisor : Integer} {i j : Int} (ha : dividend.Denotes i)
    (hb : divisor.Denotes j) (hj : j ≠ 0) (allowed : Nat) (e : Nat → Digit) :
    Decides (∀ place < estimated dividend divisor,
        Within allowed (e place).toNat (digitAt i.natAbs j.natAbs place))
      (longWith allowed (fun place _ => e place) dividend divisor) := by
  have hn : divisor.digitCount ≠ 0 := fun hzero => hj (by simpa [hzero] using hb.natAbs_lt)
  rw [longWith, estimated]
  simp only [if_neg hn]
  split
  · exact decides_none _
  · have hd := hb.abs_natAbs.trim
    have hpos := Int.natAbs_pos.mpr hj
    obtain ⟨hr, hv⟩ := ha.significant
    have hroom := top_lt ha hb hn
    rw [← length_significant dividend]
    set start := dividend.significant.length - divisor.digitCount
    -- The top digits are the dividend without its lower places.
    have hlen : (dividend.significant.take start).reverse.length = start := by
      rw [List.length_reverse, List.length_take, min_eq_left (Nat.sub_le _ _)]
    have htop : value (dividend.significant.drop start) = i.natAbs / base ^ start := by
      rw [value_drop hr, hv]
    have hlow : value (dividend.significant.take start) = i.natAbs % base ^ start := by
      have hparts := value_take_add_drop start dividend.significant (Nat.sub_le _ _)
      rw [hv, htop] at hparts
      have hdivision := Nat.mod_add_div i.natAbs (base ^ start)
      omega
    have hdenotes := denotes_nonneg (hr.drop start) rfl
    rw [htop] at hroom hdenotes
    have hfirst : remainderAt i.natAbs j.natAbs start = i.natAbs / base ^ start :=
      Nat.mod_eq_of_lt hroom
    have hsettle := settle_decides hdenotes hd hpos allowed (e start)
    rw [← hfirst, remainderAt_div] at hsettle
    rw [Nat.forall_lt_succ_right, and_comm]
    refine hsettle.bind fun p hp => ?_
    obtain ⟨R, hR, heq, hlt, -⟩ := settle_ensures hdenotes hd hroom _ p hp
    have hmod : R = i.natAbs / base ^ start % j.natAbs := by
      rw [← heq, Nat.add_comm, Nat.add_mul_mod_self_right, Nat.mod_eq_of_lt hlt]
    have hlower : InRange (dividend.significant.take start).reverse :=
      fun d h => hr.take start d (List.mem_reverse.mp h)
    have hdigits := divideDigits_decides (e := e) hd hpos allowed [p.1] hlower
      (by rw [List.reverse_reverse, hlen, hlow]) (by rw [hlen, ← hmod]; exact hR)
    rw [hlen] at hdigits
    exact hdigits.bind_ok fun qr => ⟨_, rfl⟩

/-! ## More corrections -/

/-- Corrections that are not needed are left over. -/
theorem lowerEstimate_add (more : Nat) :
    Ensures (fun x => lowerEstimate remainder divisor (left + more) q multiple =
        .ok (x.1 + more, x.2))
      (lowerEstimate remainder divisor left q multiple) := by
  induction left generalizing q multiple with
  | zero =>
    by_cases hbelow : remainder.below multiple = true
    · rw [lowerEstimate, if_pos hbelow]
      exact ensures_error
    · rw [lowerEstimate_of_not_below hbelow, lowerEstimate_of_not_below hbelow]
      exact ensures_ok rfl
  | succ left ih =>
    by_cases hbelow : remainder.below multiple = true
    · rw [Nat.succ_add, lowerEstimate, lowerEstimate, if_pos hbelow, if_pos hbelow]
      exact ih
    · rw [lowerEstimate_of_not_below hbelow, lowerEstimate_of_not_below hbelow]
      exact ensures_ok rfl

/-- More corrections than are needed change nothing. -/
theorem raiseEstimate_add (more : Nat) :
    Ensures (fun x => raiseEstimate divisor (left + more) q remainder = .ok x)
      (raiseEstimate divisor left q remainder) := by
  induction left generalizing q remainder with
  | zero =>
    by_cases hbelow : remainder.below divisor = true
    · rw [raiseEstimate_of_below hbelow, raiseEstimate_of_below hbelow]
      exact ensures_ok rfl
    · rw [raiseEstimate, if_neg hbelow]
      exact ensures_error
  | succ left ih =>
    by_cases hbelow : remainder.below divisor = true
    · rw [raiseEstimate_of_below hbelow, raiseEstimate_of_below hbelow]
      exact ensures_ok rfl
    · rw [Nat.succ_add, raiseEstimate, raiseEstimate, if_neg hbelow, if_neg hbelow]
      exact ih

/-- More corrections than are needed change no digit. -/
theorem settle_add (more : Nat) :
    Ensures (fun x => settle (allowed + more) remainder divisor q = .ok x)
      (settle allowed remainder divisor q) := by
  rw [settle, settle]
  split
  · exact raiseEstimate_add more
  · refine (lowerEstimate_add more).bind fun x hx => ?_
    rw [hx]
    exact raiseEstimate_add more

variable {estimate : Estimate}

/-- More corrections than are needed do not change the division. -/
theorem divideDigits_add (more : Nat) {lower qs : List Digit} :
    Ensures (fun x => divideDigits (allowed + more) estimate divisor lower remainder qs = .ok x)
      (divideDigits allowed estimate divisor lower remainder qs) := by
  induction lower generalizing remainder qs with
  | nil => exact ensures_ok rfl
  | cons d lower ih =>
    rw [divideDigits, divideDigits]
    refine (settle_add more).bind fun x hx => ?_
    simp only
    rw [hx]
    exact ih

/-- A result does not depend on how many corrections are allowed. -/
theorem longWith_add (more : Nat) {dividend divisor : Integer} :
    Ensures (fun x => longWith (allowed + more) estimate dividend divisor = .ok x)
      (longWith allowed estimate dividend divisor) := by
  rw [longWith, longWith]
  simp only
  split
  · exact ensures_error
  · split
    · exact ensures_ok rfl
    · refine (settle_add more).bind fun x hx => ?_
      rw [hx]
      refine (divideDigits_add more).bind fun y hy => ?_
      refine ensures_ok ?_
      change (divideDigits _ _ _ _ _ _ >>= _) = _
      rw [hy]
      rfl

/-! ## Truncated estimates -/

/-- The estimates are cut to a digit from numbers that are near the quotients by
`D`, up to `2^-30` of them. -/
def Truncates (estimate : Estimate) (D : Nat) : Prop :=
  ∀ (place : Nat) (remainder : Integer) (R : Nat), remainder.Denotes R → R < base * D →
    ∃ s : ℚ, |s - R / D| ≤ R / D / 2 ^ 30 ∧
      (estimate place remainder).toNat = min ⌊s⌋₊ mask.toNat

/-- They are off by one at most; the cut excludes no digit. -/
theorem Truncates.reliable (h : Truncates estimate D) (hpos : 0 < D) :
    Reliable 1 estimate D := by
  intro place remainder R hr hlt
  obtain ⟨s, hnear, hestimate⟩ := h place remainder R hr hlt
  have hdigit : R / D ≤ mask.toNat := Nat.le_of_lt_succ ((Nat.div_lt_iff_lt_mul hpos).mpr hlt)
  have hquotient : (R / D : ℚ) < 2 ^ 30 := by
    rw [div_lt_iff₀ (by exact_mod_cast hpos)]
    exact_mod_cast hlt
  have hnonneg : (0 : ℚ) ≤ R / D := by positivity
  rw [abs_le] at hnear
  have hs : 0 ≤ s := by linarith
  have hfloor := Nat.floor_div_eq_div (K := ℚ) R D
  have hup : ⌊s⌋₊ < R / D + 2 := by
    rw [Nat.floor_lt hs, ← hfloor]
    have := Nat.lt_floor_add_one (R / D : ℚ)
    push_cast
    linarith
  have hdown : R / D < ⌊s⌋₊ + 2 := by
    rw [← hfloor, Nat.floor_lt hnonneg]
    have := Nat.lt_floor_add_one s
    push_cast
    linarith
  rw [hestimate, Within]
  generalize R / D = exact at hdigit hup hdown ⊢
  omega

/-- The digits themselves as estimates. -/
def exactEstimate (D : Nat) : Estimate :=
  fun _ remainder => .ofNat (min (remainder.magnitude / D) mask.toNat)

/-- The digits themselves are estimates that were cut off. -/
theorem truncates_exactEstimate (D : Nat) : Truncates (exactEstimate D) D := by
  intro place remainder R hr _
  refine ⟨R / D, ?_, ?_⟩
  · rw [sub_self, abs_zero]
    positivity
  · have hlt : min (R / D) mask.toNat < UInt32.size := (min_le_right _ _).trans_lt (by decide)
    rw [exactEstimate, hr.magnitude, Int.natAbs_natCast, UInt32.toNat_ofNat_of_lt' hlt,
      Nat.floor_div_eq_div]

/-! ## Long division -/

/-- Long division of magnitudes by something other than zero, with any digits for
estimates, has a result exactly if each is within three of the digit in its place,
and then it is the exact one; otherwise an invariant is said to be violated.  With
estimates that are cut from numbers near the quotients, one correction of each digit
is enough. -/
theorem longWith_exact_iff {dividend divisor : Integer} (ha : dividend.Canonical)
    (hb : divisor.Canonical) (hne : divisor.toInt ≠ 0) :
    (∀ e : Nat → Digit,
      ((∀ place < estimated dividend divisor, Within 3 (e place).toNat
          (digitAt dividend.magnitude divisor.magnitude place)) →
        ∃ qr, longWith maxCorrections (fun place _ => e place) dividend divisor = .ok qr ∧
          qr.1.Denotes (dividend.magnitude / divisor.magnitude : Nat) ∧
          qr.2.Denotes (dividend.magnitude % divisor.magnitude : Nat)) ∧
      ((¬∀ place < estimated dividend divisor, Within 3 (e place).toNat
          (digitAt dividend.magnitude divisor.magnitude place)) →
        longWith maxCorrections (fun place _ => e place) dividend divisor =
          .error (.invariantViolation
            "quotient digit estimate needed more than 3 corrections"))) ∧
    ∀ estimate : Estimate, Truncates estimate divisor.magnitude →
      ∃ qr, longWith 1 estimate dividend divisor = .ok qr ∧
        longWith maxCorrections estimate dividend divisor = .ok qr ∧
        qr.1.Denotes (dividend.magnitude / divisor.magnitude : Nat) ∧
        qr.2.Denotes (dividend.magnitude % divisor.magnitude : Nat) := by
  have hexact {allowed : Nat} {estimate : Estimate} {qr : Integer × Integer}
      (h : longWith allowed estimate dividend divisor = .ok qr) :
      qr.1.Denotes (dividend.magnitude / divisor.magnitude : Nat) ∧
        qr.2.Denotes (dividend.magnitude % divisor.magnitude : Nat) := by
    have hvalues := longWith_ensures estimate ha.denotes hb.denotes qr h
    rwa [natAbs_toInt, natAbs_toInt] at hvalues
  refine ⟨fun e => ?_, fun estimate h => ?_⟩
  · obtain ⟨hnear, hfar⟩ := longWith_decides ha.denotes hb.denotes hne maxCorrections e
    rw [natAbs_toInt, natAbs_toInt] at hnear hfar
    refine ⟨fun h => ?_, hfar⟩
    obtain ⟨qr, hqr⟩ := hnear h
    exact ⟨qr, hqr, hexact hqr⟩
  · have hpos : 0 < divisor.magnitude := by
      rw [← natAbs_toInt]
      exact Int.natAbs_pos.mpr hne
    have hreliable := h.reliable hpos
    rw [← natAbs_toInt] at hreliable
    obtain ⟨qr, hqr⟩ := longWith_succeeds ha.denotes hb.denotes hne hreliable
    exact ⟨qr, hqr, longWith_add 2 qr hqr, hexact hqr⟩

/-- `9·2^60 + 2^31 + 1` by `3·2^30` has the digits 3 and 0: estimates that are three
too large are corrected, one that is four too large is not.  The digits themselves
need no more than one correction. -/
theorem longWith_exact_iff_six :
    Canonical ⟨true, [1, 2, 9]⟩ ∧ Canonical ⟨false, [0, 3]⟩ ∧
      (⟨false, [0, 3]⟩ : Integer).toInt ≠ 0 ∧
      (∃ qr, longWith maxCorrections (fun place _ => if place = 0 then 3 else 6)
        ⟨true, [1, 2, 9]⟩ ⟨false, [0, 3]⟩ = .ok qr ∧ qr.1.toInt = 3221225472) ∧
      longWith maxCorrections (fun _ _ => 4) ⟨true, [1, 2, 9]⟩ ⟨false, [0, 3]⟩ =
        .error (.invariantViolation "quotient digit estimate needed more than 3 corrections") ∧
      ∃ qr, longWith 1 (exactEstimate (⟨false, [0, 3]⟩ : Integer).magnitude)
        ⟨true, [1, 2, 9]⟩ ⟨false, [0, 3]⟩ = .ok qr := by
  have ha : Canonical ⟨true, [1, 2, 9]⟩ := ⟨by simp [Digits.base], fun _ => rfl⟩
  have hb : Canonical ⟨false, [0, 3]⟩ := ⟨by simp [Digits.base], fun _ => rfl⟩
  have hne : (⟨false, [0, 3]⟩ : Integer).toInt ≠ 0 := by decide
  obtain ⟨hdigits, htruncated⟩ := longWith_exact_iff ha hb hne
  obtain ⟨qr, hqr, hquotient, -⟩ := (hdigits fun place => if place = 0 then 3 else 6).1
    (by decide +kernel)
  obtain ⟨qr', hqr', -⟩ := htruncated _ (truncates_exactEstimate _)
  refine ⟨ha, hb, hne, ⟨qr, hqr, ?_⟩, (hdigits fun _ => 4).2 (by decide +kernel), qr', hqr'⟩
  rw [hquotient.toInt]
  decide +kernel

end Multiprecision.Quotient
