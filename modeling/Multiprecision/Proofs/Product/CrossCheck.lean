import Mathlib
import Multiprecision.Registers
import Multiprecision.Proofs.Outcome.Agreement
import Multiprecision.Proofs.Product

/-!
# Multiprecision.Proofs.Product.CrossCheck

The direct convolution that the coefficients of a transform are compared with
is a check that always passes, so it makes no difference up to which exponent
it is carried out:

* `Fermat.convolve_agree` — with and without it, a convolution goes on alike;
* `Product.magnitudes_agree` — so do the products that are left to further
  algorithms, at every depth;
* `Product.transform_exact` — what a product by transforms alone is, for every
  number of parts.

The check multiplies parts by the schoolbook method, which very long parts
stop in a machine word.  Nothing is said of such runs.
-/

namespace Multiprecision

open Outcome Integer

/-- Multipliers that agree on canonical factors. -/
def Multiplier.AgreeOnCanonical (multiply multiply' : Multiplier) : Prop :=
  ∀ f, f.Canonical → Agree .abortOnly Eq (multiply f) (multiply' f)

variable {multiply multiply' : Multiplier}

/-- Multipliers that agree make the same signed products. -/
theorem Multiplier.AgreeOnCanonical.signed_pair (h : multiply.AgreeOnCanonical multiply')
    {x y : Integer} {i j : Int} (hx : x.Denotes i) (hy : y.Denotes j) :
    Agree .abortOnly Eq (multiply.signed (.pair x y)) (multiply'.signed (.pair x y)) :=
  (h _ (.pair hx hy)).bind_eq fun _ => .rfl

/-! ## Toom–Cook -/

namespace ToomCook

variable {x left right : Integer} {i j : Int}

/-- Toom-1.5 is the same over multipliers that agree. -/
theorem mul15_agree (h : multiply.AgreeOnCanonical multiply') (hx : left.Denotes i)
    (hy : right.Denotes j) (into : Integer) :
    Agree .abortOnly Eq (mul15 multiply left right into) (mul15 multiply' left right into) := by
  rw [mul15, mul15]
  set z := max (left.digitCount / 2) right.digitCount
  split
  · exact .rfl
  · next hsplit =>
    rw [Bool.or_eq_true, decide_eq_true_eq, not_or] at hsplit
    have hq := hy.abs_natAbs
    refine (h.signed_pair (denotes_chunk hx hsplit.1 0) hq).bind_eq fun _ => ?_
    exact (h.signed_pair (denotes_lastChunk hx _ 1) hq).bind_eq fun _ => .rfl

/-- Toom-2 is the same over multipliers that agree. -/
theorem mul2_agree (h : multiply.AgreeOnCanonical multiply') (hx : left.Denotes i)
    (hy : right.Denotes j) (into : Integer) :
    Agree .abortOnly Eq (mul2 multiply left right into) (mul2 multiply' left right into) := by
  rw [mul2, mul2]
  set z := max (left.digitCount / 2) (right.digitCount / 2)
  split
  · exact .rfl
  · next hz =>
    have hp0 := denotes_chunk hx hz 0
    have hp1 := denotes_lastChunk hx z 1
    have hq0 := denotes_chunk hy hz 0
    have hq1 := denotes_lastChunk hy z 1
    refine (h.signed_pair hp0 hq0).bind_eq fun _ => ?_
    refine (h.signed_pair hp1 hq1).bind_eq fun _ => ?_
    exact (h.signed_pair (hp0.add hp1) (hq0.add hq1)).bind_eq fun _ => .rfl

/-- The square in two chunks is the same over multipliers that agree. -/
theorem square2_agree (h : multiply.AgreeOnCanonical multiply') (hx : x.Denotes i)
    (into : Integer) :
    Agree .abortOnly Eq (square2 multiply x into) (square2 multiply' x into) := by
  rw [square2, square2]
  set z := x.digitCount / 2
  split
  · exact .rfl
  · next hz =>
    have hp0 := denotes_chunk hx hz 0
    have hp1 := denotes_lastChunk hx z 1
    refine (h (.twice _) hp0.canonical).bind_eq fun _ => ?_
    refine (h (.twice _) hp1.canonical).bind_eq fun _ => ?_
    exact (h (.twice _) (hp0.add hp1).canonical).bind_eq fun _ => .rfl

/-- Toom-2.5 is the same over multipliers that agree. -/
theorem mul25_agree (h : multiply.AgreeOnCanonical multiply') (hx : left.Denotes i)
    (hy : right.Denotes j) (into : Integer) :
    Agree .abortOnly Eq (mul25 multiply left right into) (mul25 multiply' left right into) := by
  rw [mul25, mul25]
  set z := max (left.digitCount / 3) (right.digitCount / 2)
  split
  · exact .rfl
  · next hz =>
    have hp0 := denotes_chunk hx hz 0
    have hp1 := denotes_chunk hx hz 1
    have hp2 := denotes_lastChunk hx z 2
    have hq0 := denotes_chunk hy hz 0
    have hq1 := denotes_lastChunk hy z 1
    refine (h.signed_pair hp0 hq0).bind_eq fun _ => ?_
    refine (h.signed_pair hp2 hq1).bind_eq fun _ => ?_
    refine (h.signed_pair ((hp0.add hp2).add hp1) (hq0.add hq1)).bind_eq fun _ => ?_
    exact (h.signed_pair ((hp0.add hp2).sub hp1) (hq0.sub hq1)).bind_eq fun _ => .rfl

/-- Toom-3 is the same over multipliers that agree. -/
theorem mul3_agree (h : multiply.AgreeOnCanonical multiply') (hx : left.Denotes i)
    (hy : right.Denotes j) (into : Integer) :
    Agree .abortOnly Eq (mul3 multiply left right into) (mul3 multiply' left right into) := by
  rw [mul3, mul3]
  set z := max (left.digitCount / 3) (right.digitCount / 3)
  split
  · exact .rfl
  · next hz =>
    have hp0 := denotes_chunk hx hz 0
    have hp2 := denotes_lastChunk hx z 2
    have hq0 := denotes_chunk hy hz 0
    have hq2 := denotes_lastChunk hy z 2
    obtain ⟨hpPos, hpNeg, hpNeg2⟩ := evaluate3_spec hp0 (denotes_chunk hx hz 1) hp2
    obtain ⟨hqPos, hqNeg, hqNeg2⟩ := evaluate3_spec hq0 (denotes_chunk hy hz 1) hq2
    refine (h.signed_pair hp0 hq0).bind_eq fun _ => ?_
    refine (h.signed_pair hp2 hq2).bind_eq fun _ => ?_
    refine (h.signed_pair hpPos hqPos).bind_eq fun _ => ?_
    refine (h.signed_pair hpNeg hqNeg).bind_eq fun _ => ?_
    exact (h.signed_pair hpNeg2 hqNeg2).bind_eq fun _ => .rfl

/-- The square in three chunks is the same over multipliers that agree. -/
theorem square3_agree (h : multiply.AgreeOnCanonical multiply') (hx : x.Denotes i)
    (into : Integer) :
    Agree .abortOnly Eq (square3 multiply x into) (square3 multiply' x into) := by
  rw [square3, square3]
  set z := x.digitCount / 3
  split
  · exact .rfl
  · next hz =>
    have hp0 := denotes_chunk hx hz 0
    have hp2 := denotes_lastChunk hx z 2
    obtain ⟨hPos, hNeg, hNeg2⟩ := evaluate3_spec hp0 (denotes_chunk hx hz 1) hp2
    refine (h (.twice _) hp0.canonical).bind_eq fun _ => ?_
    refine (h (.twice _) hp2.canonical).bind_eq fun _ => ?_
    refine (h (.twice _) hPos.canonical).bind_eq fun _ => ?_
    refine (h (.twice _) hNeg.canonical).bind_eq fun _ => ?_
    exact (h (.twice _) hNeg2.canonical).bind_eq fun _ => .rfl

end ToomCook

/-! ## Transforms -/

namespace Fermat

variable {e k check check' : Nat} {f : Factors}

/-- Multipliers that agree on residues modulo `2^e + 1`. -/
def AgreeOnResidues (e : Nat) (multiply multiply' : Multiplier) : Prop :=
  ∀ f a, RepresentFactors e f a → Agree .abortOnly Eq (multiply f) (multiply' f)

/-- A run may fail or stop in a machine word. -/
def failOrAbort : Endings := ⟨True, True, False⟩

/-- Pointwise products are the same over multipliers that agree on residues. -/
theorem mapM_agree {fs : List Factors} {cs : List (Residue e)}
    (h : AgreeOnResidues e multiply multiply') (hfs : List.Forall₂ (RepresentFactors e) fs cs) :
    Agree failOrAbort Eq (fs.mapM multiply) (fs.mapM multiply') := by
  induction hfs with
  | nil => exact .rfl
  | cons hf _ ih =>
    rw [List.mapM_cons, List.mapM_cons]
    have hhead : Agree failOrAbort Eq _ _ := (h _ _ hf).weaken False.elim id id
    refine hhead.bind_eq fun _ => ?_
    exact ih.bind_eq fun _ => .rfl

/-- The end of a convolution does not depend on what the coefficients are
compared with, unless they differ from it. -/
theorem checked_agree {entries : List Factors} {cs : List (Residue (innerExponent e k))}
    (h : AgreeOnResidues (innerExponent e k) multiply multiply')
    (hentries : List.Forall₂ (RepresentFactors _) entries cs) (step size : Nat)
    (expected expected' : Option (List Integer)) :
    Agree failOrAbort Eq
      (do
        let products ← entries.mapM multiply
        let cs := coefficients (innerExponent e k) step k size 0
          (← unscramble (innerExponent e k) products (-(2 * step : Nat)))
        if let some j := expected.bind (disagreement? 0 cs) then
          throw (.invariantViolation
            ("negacyclic coefficient " ++ Nat.repr j ++ " disagrees with direct convolution"))
        return evaluate e size cs)
      (do
        let products ← entries.mapM multiply'
        let cs := coefficients (innerExponent e k) step k size 0
          (← unscramble (innerExponent e k) products (-(2 * step : Nat)))
        if let some j := expected'.bind (disagreement? 0 cs) then
          throw (.invariantViolation
            ("negacyclic coefficient " ++ Nat.repr j ++ " disagrees with direct convolution"))
        return evaluate e size cs) := by
  refine (mapM_agree h hentries).bind_eq fun products => ?_
  refine Agree.rfl.bind_eq fun entries => ?_
  dsimp only
  generalize coefficients (innerExponent e k) step k size 0 entries = cs
  cases expected.bind (disagreement? 0 cs) with
  | some j => exact .inl trivial
  | none =>
    cases expected'.bind (disagreement? 0 cs) with
    | some j => exact .inr (.inl trivial)
    | none => exact .rfl

/-- A convolution goes on alike up to whichever exponents it is compared with
the direct one. -/
theorem convolve_agree [NeZero e] (hdiv : e % 2 ^ k = 0) (hinner : innerExponent e k ≤ e)
    (h : AgreeOnResidues (innerExponent e k) multiply multiply') (hf : f.Canonical) :
    Agree failOrAbort Eq (convolve multiply check e k f) (convolve multiply' check' e k f) := by
  obtain ⟨-, hsize, hinnersize⟩ := size_spec (Nat.pos_of_neZero e) hdiv
  have : NeZero (innerExponent e k) := ⟨by omega⟩
  have hstep := innerExponent_div_mul e k
  have htransformed (x : Integer) (hx : x.Canonical) :=
    weightedForward_split hstep hsize hinnersize hx.denotes
  have hexpected {xs ys : List Integer} {as bs : List Nat} (c : Nat) (hx : DenoteAll xs as)
      (hy : DenoteAll ys bs) (ha : as.length = 2 ^ k) (hb : bs.length = 2 ^ k) :
      (expectedCoefficients c e xs ys).Yields failOrAbort fun _ => True :=
    (expectedCoefficients_yields hx hy ha hb (.inl trivial)).mono fun _ _ => trivial
  have hparts (x : Integer) (hx : x.Canonical) := split_denotes hx.denotes (2 ^ k) hsize
  rw [convolve, convolve, if_neg (by simpa using hdiv), if_neg (by omega),
    if_neg (by simpa using hdiv), if_neg (by omega)]
  cases f with
  | pair x y =>
    obtain ⟨zs, hzok, hzs⟩ := htransformed x hf.1
    obtain ⟨ws, hwok, hws⟩ := htransformed y hf.2
    refine (Agree.of_yields (hexpected check (hparts x hf.1) (hparts y hf.2) (by simp) (by simp))
      (hexpected check' (hparts x hf.1) (hparts y hf.2) (by simp) (by simp))).bind
      fun expected expected' _ => ?_
    dsimp only
    rw [show Nat.pow 2 k = 2 ^ k from rfl, hzok, hwok]
    exact checked_agree h (zipWith_pair hzs hws) ..
  | twice x =>
    obtain ⟨zs, hzok, hzs⟩ := htransformed x hf
    refine (Agree.of_yields (hexpected check (hparts x hf) (hparts x hf) (by simp) (by simp))
      (hexpected check' (hparts x hf) (hparts x hf) (by simp) (by simp))).bind
      fun expected expected' _ => ?_
    dsimp only
    rw [show Nat.pow 2 k = 2 ^ k from rfl, hzok]
    exact checked_agree h (map_twice hzs) ..

/-- Runs that cannot fail agree up to a stop in a machine word. -/
theorem agree_of_unfailing {p q : Integer → Prop} {x y : Outcome Integer}
    (h : Agree failOrAbort Eq x y) (hx : x.Yields .unfailing p) (hy : y.Yields .unfailing q) :
    Agree .abortOnly Eq x y := by
  have hrestricted : Agree .abortOnly _ x y :=
    h.restrict hx hy (fun _ => id) (fun _ => id) fun h _ => h
  exact hrestricted.mono fun _ _ hab => hab.1

/-- Products of residues, in rings within rings. -/
theorem product_agree (t : Thresholds) (check check' k : Nat) (he : 0 < e)
    (h : multiply.AgreeOnCanonical multiply')
    (hm : multiply.ExactOn .unfailing fun _ => True)
    (hm' : multiply'.ExactOn .unfailing fun _ => True) :
    AgreeOnResidues e (product { t with check := check } multiply k e)
      (product { t with check := check' } multiply' k e) := by
  induction e using Nat.strong_induction_on with
  | _ e ih =>
    intro f a hf
    have : NeZero e := ⟨he.ne'⟩
    have hx := product_exact { t with check := check } k he (hm.mono fun _ _ => trivial)
      (.inl trivial) f a hf
    have hy := product_exact { t with check := check' } k he (hm'.mono fun _ _ => trivial)
      (.inl trivial) f a hf
    have hreduced : Agree .abortOnly Eq (reducedProduct multiply e f)
        (reducedProduct multiply' e f) :=
      (h f hf.isCanonical).bind_eq fun _ => .rfl
    refine agree_of_unfailing ?_ hx hy
    rw [product, product]
    split
    · exact .rfl
    · dsimp only
      split
      · exact hreduced.weaken False.elim id id
      · split
        · next hring =>
          obtain ⟨-, hsize, hinnersize⟩ := size_spec he hring.2
          exact convolve_agree hring.2 hring.1.le (ih _ hring.1 (by omega)) hf.isCanonical
        · exact hreduced.weaken False.elim id id

/-- Products by transforms, of whatever number of parts. -/
theorem schonhageStrassen_agree (t : Thresholds) (check check' k : Nat) (hf : f.Canonical)
    (h : multiply.AgreeOnCanonical multiply')
    (hm : multiply.ExactOn .unfailing fun _ => True)
    (hm' : multiply'.ExactOn .unfailing fun _ => True) :
    Agree .abortOnly Eq (schonhageStrassen { t with check := check } multiply k f)
      (schonhageStrassen { t with check := check' } multiply' k f) := by
  by_cases hk : 2 ≤ k ∧ k < 63
  · obtain ⟨hdvd, hpos, -, -⟩ := outerExponent_spec k hf
    have hinner := innerExponent_le hk.1 hpos hdvd
    have hdiv := Nat.mod_eq_zero_of_dvd hdvd
    obtain ⟨-, hsize, hinnersize⟩ := size_spec hpos hdiv
    have : NeZero (outerExponent k f) := ⟨hpos.ne'⟩
    have hx := schonhageStrassen_yields { t with check := check } hk.1 hk.2 hf
      (hm.mono fun _ _ => trivial) (.inl trivial)
    have hy := schonhageStrassen_yields { t with check := check' } hk.1 hk.2 hf
      (hm'.mono fun _ _ => trivial) (.inl trivial)
    refine agree_of_unfailing ?_ hx hy
    rw [schonhageStrassen, schonhageStrassen, if_pos (by simp [hk]), if_pos (by simp [hk])]
    exact convolve_agree hdiv hinner
      (product_agree t check check' k (by omega) h hm hm') hf
  · rw [schonhageStrassen, schonhageStrassen, if_neg (by simpa using hk),
      if_neg (by simpa using hk)]
    exact .rfl

end Fermat

/-! ## Every level -/

namespace Product

variable {f : Factors} {t : Thresholds} {check check' : Nat}

/-- No algorithm for products depends on the check, over multipliers that agree. -/
theorem byAlgorithm_agree (algorithm : Algorithm) {x y : Integer} (hx : x.Canonical)
    (hy : y.Canonical) (h : multiply.AgreeOnCanonical multiply')
    (hm : multiply.ExactOn .unfailing fun _ => True)
    (hm' : multiply'.ExactOn .unfailing fun _ => True) (into : Integer) :
    Agree .abortOnly Eq (byAlgorithm { t with check := check } multiply algorithm x y into)
      (byAlgorithm { t with check := check' } multiply' algorithm x y into) := by
  have hordered {x y : Integer} (hx : x.Canonical) (hy : y.Canonical)
      (hle : y.digitCount ≤ x.digitCount) :
      Agree .abortOnly Eq (byAlgorithm { t with check := check } multiply algorithm x y into)
        (byAlgorithm { t with check := check' } multiply' algorithm x y into) := by
    simp only [byAlgorithm, if_pos hle]
    cases algorithm with
    | gradeSchool => exact .rfl
    | toom15 => exact ToomCook.mul15_agree h hx.denotes hy.denotes into
    | toom2 => exact ToomCook.mul2_agree h hx.denotes hy.denotes into
    | toom25 => exact ToomCook.mul25_agree h hx.denotes hy.denotes into
    | toom3 => exact ToomCook.mul3_agree h hx.denotes hy.denotes into
    | schonhageStrassen k =>
      exact Fermat.schonhageStrassen_agree t check check' k (f := .pair x y) ⟨hx, hy⟩ h hm hm'
  by_cases hle : y.digitCount ≤ x.digitCount
  · exact hordered hx hy hle
  · have hge : x.digitCount ≤ y.digitCount := by omega
    have hswapped := hordered hy hx hge
    simpa only [byAlgorithm, if_neg hle, if_pos hge] using hswapped

/-- No algorithm for squares depends on the check, over multipliers that agree. -/
theorem squareByAlgorithm_agree (algorithm : Algorithm) {x : Integer} (hx : x.Canonical)
    (h : multiply.AgreeOnCanonical multiply')
    (hm : multiply.ExactOn .unfailing fun _ => True)
    (hm' : multiply'.ExactOn .unfailing fun _ => True) (into : Integer) :
    Agree .abortOnly Eq (squareByAlgorithm { t with check := check } multiply algorithm x into)
      (squareByAlgorithm { t with check := check' } multiply' algorithm x into) := by
  cases algorithm with
  | gradeSchool => exact .rfl
  | toom15 => exact ToomCook.square2_agree h hx.denotes into
  | toom2 => exact ToomCook.square2_agree h hx.denotes into
  | toom25 => exact ToomCook.square3_agree h hx.denotes into
  | toom3 => exact ToomCook.square3_agree h hx.denotes into
  | schonhageStrassen k =>
    exact Fermat.schonhageStrassen_agree t check check' k (f := .twice x) hx h hm hm'

/-- No algorithm depends on the check, over multipliers that agree. -/
theorem compute_agree (algorithm : Algorithm) (hf : f.Canonical)
    (h : multiply.AgreeOnCanonical multiply')
    (hm : multiply.ExactOn .unfailing fun _ => True)
    (hm' : multiply'.ExactOn .unfailing fun _ => True) (into : Integer) :
    Agree .abortOnly Eq (compute { t with check := check } algorithm f into multiply)
      (compute { t with check := check' } algorithm f into multiply') := by
  cases f with
  | pair x y => exact byAlgorithm_agree algorithm hf.1 hf.2 h hm hm' into
  | twice x => exact squareByAlgorithm_agree algorithm hf h hm hm' into

/-- The check has no part in the choice of an algorithm. -/
theorem algorithm_check (t : Thresholds) (check : Nat) (f : Factors) :
    f.algorithm { t with check := check } = f.algorithm t := by
  cases f <;> rfl

/-- At any depth a product does not depend on the check. -/
theorem magnitudes_agree (t : Thresholds) (check check' depth : Nat) (hf : f.Canonical)
    (into : Integer) :
    Agree .abortOnly Eq (magnitudes { t with check := check } depth f into)
      (magnitudes { t with check := check' } depth f into) := by
  induction depth generalizing f into with
  | zero => exact .rfl
  | succ depth ih =>
    by_cases hzero : f.magnitude = 0
    · rw [magnitudes_succ_of_zero _ depth hf hzero, magnitudes_succ_of_zero _ depth hf hzero]
      exact .rfl
    · rw [magnitudes_succ_eq_compute _ depth hf hzero,
        magnitudes_succ_eq_compute _ depth hf hzero, algorithm_check, algorithm_check]
      exact compute_agree _ hf (fun g hg => ih hg .zero) (magnitudes_exactOn _ depth _)
        (magnitudes_exactOn _ depth _) into

/-- A product by a given algorithm does not depend on the check. -/
theorem withAlgorithm_agree (t : Thresholds) (check check' depth : Nat) (algorithm : Algorithm)
    (hf : f.Canonical) (into : Integer) :
    Agree .abortOnly Eq (withAlgorithm { t with check := check } depth algorithm f into)
      (withAlgorithm { t with check := check' } depth algorithm f into) := by
  rw [withAlgorithm_eq_compute, withAlgorithm_eq_compute]
  exact compute_agree algorithm hf (fun g hg => magnitudes_agree t check check' depth hg .zero)
    (magnitudes_exactOn _ depth _) (magnitudes_exactOn _ depth _) into

/-! ## Products by transforms -/

/-- Runs that agree up to a stop in a machine word, and do not stop there. -/
theorem eq_of_agree {x y : Outcome Integer} (h : Agree .abortOnly Eq x y) (hx : x ≠ .aborted)
    (hy : y ≠ .aborted) : x = y := by
  have hends {z : Outcome Integer} (hz : z ≠ .aborted) : ¬ z.EndsBy .abortOnly := by
    cases z with
    | aborted => exact absurd rfl hz
    | value a => exact id
    | failure e => exact id
    | exhausted => exact id
  exact h.eq (hends hx) (hends hy)

/-- Products by transforms with any number of parts.  From four parts on, the
inner ring is no larger than the outer one, which holds the product; no
product is an error, a value is exact, canonical and the schoolbook one, and
the comparison with the direct convolution makes no difference.  Fewer than
four parts, or more than a machine word counts, are refused, and the register
for the product keeps what it held. -/
theorem transform_exact (t : Thresholds) (depth k : Nat) {f : Factors} (hf : f.Canonical)
    (into : Integer) :
    (2 ≤ k → k < 63 →
      Fermat.innerExponent (Fermat.outerExponent k f) k ≤ Fermat.outerExponent k f ∧
      f.magnitude < 2 ^ Fermat.outerExponent k f ∧
      (∀ e, withAlgorithm t depth (.schonhageStrassen k) f into ≠ .failure e) ∧
      (∀ r, withAlgorithm t depth (.schonhageStrassen k) f into = .value r →
        r.toInt = f.magnitude ∧ r.Canonical ∧
          ∀ into' s, schoolbook f into' = .value s → s.toInt = r.toInt) ∧
      ∀ check, withAlgorithm t depth (.schonhageStrassen k) f into ≠ .aborted →
        withAlgorithm { t with check := check } depth (.schonhageStrassen k) f into ≠ .aborted →
        withAlgorithm { t with check := check } depth (.schonhageStrassen k) f into =
          withAlgorithm t depth (.schonhageStrassen k) f into) ∧
    (k < 2 ∨ 63 ≤ k →
      let refusal := Error.invalidArgument
        ("schonhage-strassen needs at least 4 parts, got 2^" ++ Nat.repr k)
      withAlgorithm t depth (.schonhageStrassen k) f into = .failure refusal ∧
      ∀ (rs : Registers) target left right source,
        rs.step t depth ⟨target, .mulBy (.schonhageStrassen k) left right⟩ =
          (rs, .failure refusal) ∧
        rs.step t depth ⟨target, .squareBy (.schonhageStrassen k) source⟩ =
          (rs, .failure refusal)) := by
  refine ⟨fun hk hk63 => ?_, fun hk => ?_⟩
  · obtain ⟨hdvd, hpos, -, hproduct⟩ := Fermat.outerExponent_spec k hf
    have hsupported : Supported (.schonhageStrassen k) := by
      rintro _ ⟨⟩
      exact ⟨hk, hk63⟩
    obtain ⟨hfailure, hvalue⟩ :=
      yields_unfailing.mp (withAlgorithm_yields t depth hsupported hf into)
    refine ⟨Fermat.innerExponent_le hk hpos hdvd, hproduct, hfailure, fun r hr => ?_,
      fun check hplain hchecked => ?_⟩
    · have hdenotes := hvalue r hr
      refine ⟨hdenotes.toInt, hdenotes.canonical, fun into' s hs => ?_⟩
      rw [hdenotes.toInt, ((schoolbook_yields hf into').of_value hs).toInt]
    · exact eq_of_agree (withAlgorithm_agree t check t.check depth _ hf into) hchecked hplain
  · have hwith := withAlgorithm_unsupported t depth hk
    refine ⟨hwith f into, fun rs target left right source => ⟨?_, ?_⟩⟩
    · simp only [Registers.step, Registers.effect, hwith, failure_bind]
    · simp only [Registers.step, Registers.effect, hwith, failure_bind]

/-- The product of -5 and 3 with four parts, written over other digits and with
the direct convolution beside it. -/
theorem transform_exact_four_parts :
    (Factors.pair ⟨true, [5]⟩ ⟨false, [3, 0]⟩).Canonical ∧
      withAlgorithm { check := 64 } 1 (.schonhageStrassen 2)
        (.pair ⟨true, [5]⟩ ⟨false, [3, 0]⟩) ⟨true, [9]⟩ = .value ⟨false, [15]⟩ ∧
      (⟨false, [15]⟩ : Integer).toInt = (Factors.pair ⟨true, [5]⟩ ⟨false, [3, 0]⟩).magnitude := by
  have hf : (Factors.pair ⟨true, [5]⟩ ⟨false, [3, 0]⟩).Canonical :=
    ⟨⟨by simp [Digits.base], fun _ => rfl⟩, ⟨by simp [Digits.base], fun _ => rfl⟩⟩
  have hrun : withAlgorithm { check := 64 } 1 (.schonhageStrassen 2)
      (.pair ⟨true, [5]⟩ ⟨false, [3, 0]⟩) ⟨true, [9]⟩ = .value ⟨false, [15]⟩ := by
    decide +kernel
  obtain ⟨-, -, -, hvalue, -⟩ :=
    (transform_exact { check := 64 } 1 2 hf ⟨true, [9]⟩).1 (by decide) (by decide)
  exact ⟨hf, hrun, (hvalue _ hrun).1⟩

end Product

end Multiprecision
