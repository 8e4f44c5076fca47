import Mathlib
import Multiprecision.Calibration.Crossover.Checked
import Multiprecision.Proofs.Size

/-!
# Multiprecision.Proofs.Calibration.Crossover

The search for the size from which a fast algorithm wins.  A trial may fail,
and may answer anything at any time: it is an action on a state, and its calls
are written down (`noted`).

* `refine?_eq` — no size is too large for its word;
* `Bracket.next` — an answer halves the interval and keeps what is known of
  its ends;
* `refine_run` — so a search goes on from any interval that the calls have
  shown;
* `refine_exact` — a whole search.
-/

namespace Multiprecision.Calibration.Crossover

variable {m : Type → Type} [Monad m]

/-! ## Sizes -/

/-- The middle of an interval is found without overflow. -/
theorem middle?_eq {low high : Nat} (hle : low ≤ high) (hfits : high < 2 ^ 64) :
    middle? low high = some (low + (high - low) / 2) := by
  rw [middle?, Size.sub?_eq hle]
  exact Size.add?_eq (by omega)

/-- No size is too large for its word. -/
theorem refine?_eq [LawfulMonad m] (wins : Nat → m Bool) (rounds : Nat) {low high : Nat}
    (hle : low ≤ high) (hfits : high + leastWidth < 2 ^ 64) :
    refine? wins rounds low high = some <$> refine wins rounds low high := by
  induction rounds generalizing low high with
  | zero => rw [refine?, refine, map_pure]
  | succ rounds ih =>
    have hleast : Size.add? low leastWidth = some (low + leastWidth) := Size.add?_eq (by omega)
    have hmid : middle? low high = some (low + (high - low) / 2) := middle?_eq hle (by omega)
    simp only [refine?, refine, hleast, hmid]
    split
    · rw [map_pure]
    · rw [map_bind]
      refine bind_congr fun won => ?_
      split
      · exact ih (by omega) (by omega)
      · exact ih (by omega) hfits

/-! ## Trials that are written down -/

variable {ε σ : Type}

/-- A trial that is written down with its answer, after the ones before it. -/
def noted (wins : Nat → ExceptT ε (StateM σ) Bool) (bits : Nat) :
    ExceptT ε (StateM (σ × List (Nat × Except ε Bool))) Bool :=
  ExceptT.mk fun s =>
    let answer := (wins bits).run.run s.1
    (answer.1, answer.2, s.2 ++ [(bits, answer.1)])

variable {low high l h : Nat} {calls : List (Nat × Except ε Bool)}

/-- What the calls have shown of the interval from `l` up to `h`: unless they are
the ends that the search began with, `low` and `high`, the fast algorithm lost at
`l` and won at `h`. -/
structure Bracket (low high : Nat) (calls : List (Nat × Except ε Bool)) (l h : Nat) : Prop where
  low_le : low ≤ l
  lt : l < h
  le_high : h ≤ high
  lost : l = low ∨ (l, .ok false) ∈ calls
  won : h = high ∨ (h, .ok true) ∈ calls

/-- An answer at a size inside halves the interval. -/
theorem Bracket.next (hb : Bracket low high calls l h) {mid : Nat} (hl : l < mid) (hh : mid < h)
    (b : Bool) :
    Bracket low high (calls ++ [(mid, .ok b)]) (if b then l else mid) (if b then mid else h) := by
  have hlast : (mid, .ok b) ∈ calls ++ [(mid, (.ok b : Except ε Bool))] :=
    List.mem_append_right _ (List.mem_singleton_self _)
  cases b with
  | true =>
    exact ⟨hb.low_le, hl, hh.le.trans hb.le_high, hb.lost.imp_right (List.mem_append_left _),
      .inr hlast⟩
  | false =>
    exact ⟨hb.low_le.trans hl.le, hh, hb.le_high, .inr hlast,
      hb.won.imp_right (List.mem_append_left _)⟩

/-- How a search may end that made these calls: with the first error, and then there
are no more calls; or with the upper end of an interval that the calls have shown,
no wider than `width`. -/
inductive Found (low high width : Nat) (calls : List (Nat × Except ε Bool)) :
    Except ε Nat → Prop
  | failed {asked : List (Nat × Except ε Bool)} {bits : Nat} {e : ε}
      (last : calls = asked ++ [(bits, .error e)]) (answered : ∀ c ∈ asked, ∃ b, c.2 = .ok b) :
      Found low high width calls (.error e)
  | located {l r : Nat} (answered : ∀ c ∈ calls, ∃ b, c.2 = .ok b)
      (bracket : Bracket low high calls l r) (narrow : r - l ≤ width) :
      Found low high width calls (.ok r)

/-- What was found to some width was found to a larger one. -/
theorem Found.mono {width width' : Nat} {outcome : Except ε Nat} (hle : width ≤ width')
    (h : Found low high width calls outcome) : Found low high width' calls outcome := by
  cases h with
  | failed last answered => exact .failed last answered
  | located answered bracket narrow => exact .located answered bracket (narrow.trans hle)

/-- Answers that change once, at the size `b`, lead there. -/
theorem Found.of_boundary {width b : Nat} {outcome : Except ε Nat}
    (h : Found low high width calls outcome) (hlow : low < b) (hhigh : b ≤ high)
    (hcalls : ∀ c ∈ calls, c.2 = .ok (decide (b ≤ c.1))) :
    ∃ r, outcome = .ok r ∧ b ≤ r ∧ r < b + width := by
  cases h with
  | @failed asked bits e last answered =>
    have hmem : (bits, .error e) ∈ calls :=
      last ▸ List.mem_append_right _ (List.mem_singleton_self _)
    simpa using hcalls _ hmem
  | @located l r answered bracket narrow =>
    have hl : l < b := by
      rcases bracket.lost with rfl | hmem
      · exact hlow
      · simpa using hcalls _ hmem
    have hr : b ≤ r := by
      rcases bracket.won with rfl | hmem
      · exact hhigh
      · simpa using hcalls _ hmem
    exact ⟨r, rfl, hr, by omega⟩

/-- One round less for the larger half of an interval. -/
theorem halved_ceilDiv_le {w w' : Nat} (h : w' ≤ w - w / 2) (n : Nat) :
    w' ⌈/⌉ 2 ^ n ≤ w ⌈/⌉ 2 ^ (n + 1) := by
  have hw : w ≤ 2 ^ (n + 1) • (w ⌈/⌉ 2 ^ (n + 1)) :=
    (ceilDiv_le_iff_le_smul (Nat.two_pow_pos _)).mp le_rfl
  generalize w ⌈/⌉ 2 ^ (n + 1) = c at hw ⊢
  rw [smul_eq_mul, pow_succ', Nat.mul_assoc] at hw
  rw [ceilDiv_le_iff_le_smul (Nat.two_pow_pos _), smul_eq_mul]
  omega

/-! ## Single trials -/

section Steps

variable {τ : Type} {trial : Nat → ExceptT ε (StateM τ) Bool} {rounds : Nat} {t t' : τ}

/-- An interval of no more than the least width is not cut: its upper end is the
answer, and there is no trial. -/
theorem run_refine_narrow (hnarrow : h ≤ l + leastWidth) :
    (refine trial (rounds + 1) l h).run.run t = (.ok h, t) := by
  rw [refine, if_pos hnarrow]
  rfl

/-- The error of a trial ends the search, with the state that the trial left. -/
theorem run_refine_error {mid : Nat} (hmid : mid = l + (h - l) / 2)
    (hwide : ¬ h ≤ l + leastWidth) {e : ε} (htrial : (trial mid).run.run t = (.error e, t')) :
    (refine trial (rounds + 1) l h).run.run t = (.error e, t') := by
  rw [refine, if_neg hwide, ExceptT.run_bind, StateT.run_bind, ← hmid, htrial]
  rfl

/-- The answer of a trial says which half is searched next. -/
theorem run_refine_ok {mid : Nat} (hmid : mid = l + (h - l) / 2) (hwide : ¬ h ≤ l + leastWidth)
    {b : Bool} (htrial : (trial mid).run.run t = (.ok b, t')) :
    (refine trial (rounds + 1) l h).run.run t =
      (refine trial rounds (if b then l else mid) (if b then mid else h)).run.run t' := by
  rw [refine, if_neg hwide, ExceptT.run_bind, StateT.run_bind, ← hmid, htrial]
  cases b <;> rfl

end Steps

/-- A call is written down as it is made. -/
theorem run_noted {wins : Nat → ExceptT ε (StateM σ) Bool} {bits : Nat} {s s' : σ}
    {answer : Except ε Bool}
    (hcall : (wins bits).run.run s = (answer, s')) (calls : List (Nat × Except ε Bool)) :
    (noted wins bits).run.run (s, calls) = (answer, s', calls ++ [(bits, answer)]) := by
  show (((wins bits).run.run s).1, ((wins bits).run.run s).2, _) = _
  rw [hcall]

/-! ## Whole searches -/

/-- From an interval that the calls have found so far, a search goes on with calls
inside it. -/
theorem refine_run (wins : Nat → ExceptT ε (StateM σ) Bool) (hb : Bracket low high calls l h)
    (hanswered : ∀ c ∈ calls, ∃ b, c.2 = .ok b) (rounds : Nat) (s : σ) :
    ∃ later outcome s',
      (refine (noted wins) rounds l h).run.run (s, calls) = (outcome, s', calls ++ later) ∧
      (refine wins rounds l h).run.run s = (outcome, s') ∧
      later.length ≤ rounds ∧
      (∀ c ∈ later, low < c.1 ∧ c.1 < high ∧ ∃ t, ((wins c.1).run.run t).1 = c.2) ∧
      Found low high (max leastWidth ((h - l) ⌈/⌉ 2 ^ rounds)) (calls ++ later) outcome := by
  induction rounds generalizing l h calls s with
  | zero =>
    refine ⟨[], .ok h, s, ?_, rfl, le_rfl, by simp, ?_⟩
    · rw [List.append_nil]
      rfl
    · rw [List.append_nil]
      exact .located hanswered hb (by simp)
  | succ rounds ih =>
    by_cases hnarrow : h ≤ l + leastWidth
    · refine ⟨[], .ok h, s, ?_, run_refine_narrow hnarrow, Nat.zero_le _, by simp, ?_⟩
      · rw [List.append_nil]
        exact run_refine_narrow hnarrow
      · rw [List.append_nil]
        exact .located hanswered hb (le_max_of_le_left (by omega))
    · obtain ⟨mid, hmid⟩ : ∃ mid, mid = l + (h - l) / 2 := ⟨_, rfl⟩
      have hwidth : leastWidth = 30 := rfl
      have hlower : l < mid := by omega
      have hupper : mid < h := by omega
      obtain ⟨answer, s₁, hcall⟩ : ∃ answer s₁, (wins mid).run.run s = (answer, s₁) := ⟨_, _, rfl⟩
      have hasked : low < mid ∧ mid < high ∧ ∃ t, ((wins mid).run.run t).1 = answer :=
        ⟨hb.low_le.trans_lt hlower, hupper.trans_le hb.le_high, s, congrArg Prod.fst hcall⟩
      cases answer with
      | error e =>
        refine ⟨[(mid, .error e)], .error e, s₁, run_refine_error hmid hnarrow (run_noted hcall _),
          run_refine_error hmid hnarrow hcall, by simp, ?_, .failed rfl hanswered⟩
        exact List.forall_mem_singleton.mpr hasked
      | ok b =>
        have hanswered' : ∀ c ∈ calls ++ [(mid, .ok b)], ∃ b, c.2 = .ok b :=
          List.forall_mem_append.mpr ⟨hanswered, List.forall_mem_singleton.mpr ⟨b, rfl⟩⟩
        have hhalf : (if b then mid else h) - (if b then l else mid) ≤ h - l - (h - l) / 2 := by
          cases b <;> simp <;> omega
        obtain ⟨later, outcome, s', hwritten, hrun, hlength, hcalls, hfound⟩ :=
          ih (hb.next hlower hupper b) hanswered' s₁
        rw [List.append_assoc] at hwritten hfound
        refine ⟨(mid, .ok b) :: later, outcome, s', ?_, ?_, Nat.succ_le_succ hlength,
          List.forall_mem_cons.mpr ⟨hasked, hcalls⟩, ?_⟩
        · rw [run_refine_ok hmid hnarrow (run_noted hcall _), hwritten]
          rfl
        · rw [run_refine_ok hmid hnarrow hcall, hrun]
        · exact hfound.mono (max_le_max_left _ (halved_ceilDiv_le hhalf rounds))

/-- A search between two sizes calls no more often than it has rounds, and only at
sizes in between, whatever the answers are; written down or not, the calls are the
same.  It ends as `Found` says, with an interval that is halved in each round down to
the least width.  If the fast algorithm wins just from a size `b` on, that size is in
the interval.  No size is too large for its word. -/
theorem refine_exact (hlt : low < high) (hfits : high + 30 < 2 ^ 64) (rounds : Nat)
    (wins : Nat → ExceptT ε (StateM σ) Bool) (s : σ) :
    refine? wins rounds low high = some <$> refine wins rounds low high ∧
    ∃ calls outcome s',
      (refine (noted wins) rounds low high).run.run (s, []) = (outcome, s', calls) ∧
      (refine wins rounds low high).run.run s = (outcome, s') ∧
      calls.length ≤ rounds ∧ (∀ c ∈ calls, low < c.1 ∧ c.1 < high) ∧
      Found low high (max 30 ((high - low) ⌈/⌉ 2 ^ rounds)) calls outcome ∧
      ∀ b, low < b → b ≤ high →
        (∀ bits t, ((wins bits).run.run t).1 = .ok (decide (b ≤ bits))) →
        ∃ r, outcome = .ok r ∧ b ≤ r ∧ r < b + max 30 ((high - low) ⌈/⌉ 2 ^ rounds) := by
  have hstart : Bracket low high ([] : List (Nat × Except ε Bool)) low high :=
    ⟨le_rfl, hlt, le_rfl, .inl rfl, .inl rfl⟩
  obtain ⟨calls, outcome, s', hwritten, hrun, hlength, hcalls, hfound⟩ :=
    refine_run wins hstart (by simp) rounds s
  refine ⟨refine?_eq wins rounds hlt.le hfits, calls, outcome, s', hwritten, hrun, hlength,
    fun c hc => ⟨(hcalls c hc).1, (hcalls c hc).2.1⟩, hfound, fun b hlow hhigh hb => ?_⟩
  refine hfound.of_boundary hlow hhigh fun c hc => ?_
  obtain ⟨t, ht⟩ := (hcalls c hc).2.2
  rw [← ht, hb]

/-- Twenty rounds between 0 and 10000, where the fast algorithm wins from 3000 on. -/
theorem refine_exact_three_thousand :
    0 < 10000 ∧ 10000 + 30 < 2 ^ 64 ∧
    ∃ calls : List (Nat × Except Error Bool),
      (refine (noted fun bits => (pure (decide (3000 ≤ bits)) : ExceptT Error (StateM Unit) Bool))
        20 0 10000).run.run ((), []) = (.ok 3007, (), calls) ∧
      calls.length ≤ 20 ∧ (∀ c ∈ calls, 0 < c.1 ∧ c.1 < 10000) ∧
      Found 0 10000 30 calls (.ok 3007) ∧ 3000 ≤ 3007 ∧ 3007 < 3000 + 30 := by
  have hlt : 0 < 10000 := by decide
  have hfits : 10000 + 30 < 2 ^ 64 := by decide
  obtain ⟨-, calls, outcome, s', hwritten, hrun, hlength, hcalls, hfound, hboundary⟩ :=
    refine_exact hlt hfits 20
      (fun bits => (pure (decide (3000 ≤ bits)) : ExceptT Error (StateM Unit) Bool)) ()
  have hvalue : outcome = .ok 3007 := (congrArg Prod.fst hrun).symm.trans (by rfl)
  have hwidth : max 30 ((10000 - 0) ⌈/⌉ 2 ^ 20) = 30 := by decide
  subst hvalue
  rw [hwidth] at hfound hboundary
  obtain ⟨r, hr, hle, hr'⟩ := hboundary 3000 (by decide) (by decide) fun bits t => rfl
  cases hr
  exact ⟨hlt, hfits, calls, hwritten, hlength, hcalls, hfound, hle, hr'⟩

end Multiprecision.Calibration.Crossover
