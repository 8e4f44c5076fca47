import Mathlib
import Multiprecision.Calibration.Profile
import Multiprecision.Thresholds.Overrides

/-!
# Multiprecision.Proofs.Thresholds

Normalized thresholds are the least valid ones that are no lower than those
that were given, once zeros have their defaults: `isLeast_normalize`.  So
valid thresholds are those that normalizing leaves as they are
(`normalize_eq_iff`), and whatever puts thresholds in force normalizes them.
-/

namespace Multiprecision.Thresholds

variable {s t : Thresholds}

/-! ## Order -/

/-- Thresholds are compared one by one. -/
instance : PartialOrder Thresholds where
  le s t :=
    s.toom2 ≤ t.toom2 ∧ s.toom3 ≤ t.toom3 ∧ s.transform64 ≤ t.transform64 ∧
      s.transform128 ≤ t.transform128 ∧ s.fermat ≤ t.fermat ∧ s.newton ≤ t.newton ∧
      s.check ≤ t.check
  le_refl s := by simp
  le_trans s t u hst htu := by omega
  le_antisymm s t hst hts := by
    cases s
    cases t
    simp only at hst hts
    simp only [mk.injEq]
    omega

/-- Valid thresholds are ordered, and none is below its least value. -/
theorem isValid_iff {t : Thresholds} : t.isValid = true ↔
    leastToom2 ≤ t.toom2 ∧ t.toom2 ≤ t.toom3 ∧ t.toom3 ≤ t.transform64 ∧
      t.transform64 ≤ t.transform128 ∧ leastFermat ≤ t.fermat ∧ leastNewton ≤ t.newton := by
  simp only [isValid, Bool.and_eq_true, decide_eq_true_eq, and_assoc]

/-! ## Defaults -/

/-- The thresholds with defaults for zeros.  To check no convolution at all is a
choice, and stays. -/
def withDefaults (t : Thresholds) : Thresholds where
  toom2 := orElse t.toom2 default.toom2
  toom3 := orElse t.toom3 default.toom3
  transform64 := orElse t.transform64 default.transform64
  transform128 := orElse t.transform128 default.transform128
  fermat := orElse t.fermat default.fermat
  newton := orElse t.newton default.newton
  check := t.check

/-- A value that is given is not replaced. -/
theorem orElse_of_pos {n : Nat} (h : 0 < n) (other : Nat) : orElse n other = n :=
  if_neg h.ne'

/-- Valid thresholds have no zeros that stand for defaults. -/
theorem withDefaults_of_isValid (h : t.isValid = true) : t.withDefaults = t := by
  have hvalid := isValid_iff.mp h
  have htoom2 : 0 < leastToom2 := by decide
  have hfermat : 0 < leastFermat := by decide
  have hnewton : 0 < leastNewton := by decide
  simp only [withDefaults]
  repeat rw [orElse_of_pos (by omega)]

/-! ## Normalized thresholds -/

/-- Thresholds are valid once they are normalized. -/
theorem isValid_normalize (t : Thresholds) : t.normalize.isValid = true := by
  rw [isValid_iff]
  exact ⟨le_max_right _ _, le_max_right _ _, le_max_right _ _, le_max_right _ _,
    le_max_right _ _, le_max_right _ _⟩

/-- Once the defaults are filled in, normalizing lowers no threshold. -/
theorem withDefaults_le_normalize (t : Thresholds) : t.withDefaults ≤ t.normalize :=
  ⟨le_max_left _ _, le_max_left _ _, le_max_left _ _, le_max_left _ _, le_max_left _ _,
    le_max_left _ _, le_rfl⟩

/-- Each threshold is raised no further than the one before it, or its least
value, makes necessary. -/
theorem normalize_le (hs : s.isValid = true) (h : t.withDefaults ≤ s) : t.normalize ≤ s := by
  obtain ⟨hleast, h23, h34, h45, hfermat, hnewton⟩ := isValid_iff.mp hs
  obtain ⟨htoom2, htoom3, htransform64, htransform128, hring, hdivision, hcheck⟩ := h
  have h2 : t.normalize.toom2 ≤ s.toom2 := max_le htoom2 hleast
  have h3 : t.normalize.toom3 ≤ s.toom3 := max_le htoom3 (h2.trans h23)
  have h4 : t.normalize.transform64 ≤ s.transform64 := max_le htransform64 (h3.trans h34)
  have h5 : t.normalize.transform128 ≤ s.transform128 := max_le htransform128 (h4.trans h45)
  exact ⟨h2, h3, h4, h5, max_le hring hfermat, max_le hdivision hnewton, hcheck⟩

/-- Normalized thresholds are the least valid ones that are not below those
given. -/
theorem isLeast_normalize (t : Thresholds) :
    IsLeast {s | s.isValid = true ∧ t.withDefaults ≤ s} t.normalize :=
  ⟨⟨isValid_normalize t, withDefaults_le_normalize t⟩, fun _ hs => normalize_le hs.1 hs.2⟩

/-- Valid thresholds are those that are normalized already. -/
theorem normalize_eq_iff : t.normalize = t ↔ t.isValid = true := by
  constructor
  · intro h
    rw [← h]
    exact isValid_normalize t
  · intro h
    have hdefaults := withDefaults_of_isValid h
    apply le_antisymm
    · exact normalize_le h hdefaults.le
    · calc t = t.withDefaults := hdefaults.symm
        _ ≤ t.normalize := withDefaults_le_normalize t

/-- The default thresholds are valid. -/
theorem isValid_default : default.isValid = true := by decide

/-- A change puts valid thresholds in force. -/
theorem isValid_after (t : Thresholds) (c : Change) : (t.after c).isValid = true := by
  cases c with
  | install t => exact isValid_normalize t
  | reset => exact isValid_default

/-- Whatever changes were made, valid thresholds are in force. -/
theorem isValid_inForce (changes : List Change) : (inForce changes).isValid = true := by
  rw [inForce]
  suffices ∀ t : Thresholds, t.isValid = true → (changes.foldl after t).isValid = true from
    this default isValid_default
  induction changes with
  | nil => exact fun t ht => ht
  | cons c changes ih => exact fun t _ => ih (t.after c) (isValid_after t c)

/-- Normalized thresholds are the least valid ones from those given on, zeros
taken for defaults.  Normalizing leaves valid thresholds as they are, and no
others; so thresholds in force, those of a run with overrides and those of a
measured profile are valid. -/
theorem normalize_exact (t : Thresholds) :
    IsLeast {s | s.isValid = true ∧ t.withDefaults ≤ s} t.normalize ∧
    t.normalize.normalize = t.normalize ∧
    (t.isValid = true ↔ t.normalize = t) ∧
    (∀ changes, (inForce changes).isValid = true ∧
      inForce (changes ++ [.install t]) = t.normalize) ∧
    (∀ o : Overrides, (o.apply t).isValid = true) ∧
    ∀ machine seconds, (Calibration.Profile.measured machine seconds t).isValid = true := by
  refine ⟨isLeast_normalize t, normalize_eq_iff.mpr (isValid_normalize t),
    normalize_eq_iff.symm, fun changes => ⟨isValid_inForce changes, ?_⟩,
    fun o => isValid_normalize _, fun machine seconds => isValid_normalize t⟩
  rw [inForce, List.foldl_append]
  rfl

/-- A threshold of zero is the default one even where the one before it is
larger, which then raises it. -/
example : normalize ⟨3000000000, 0, 5, 0, 1, 0, 0⟩ =
    ⟨3000000000, 3000000000, 3000000000, 3000000000, 1024, 350000, 0⟩ := by decide

end Multiprecision.Thresholds
