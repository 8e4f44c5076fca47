import Mathlib
import Multiprecision.Fermat.Stages
import Multiprecision.Proofs.Fermat.Transform

/-!
# Multiprecision.Proofs.Fermat.Stages

The stages of a transform in place:

* `pairAt_stage` — a stage replaces every pair of entries once, so the order in
  which it visits them does not matter;
* `stage_append` — on the two halves of a signal it is a stage of each;
* `forwardStages_eq`, `backwardStages_eq` — so the stages are the transforms
  that split a signal in halves, entry for entry;
* `scrambleInPlace_eq`, `unscrambleInPlace_eq` — a signal of `2^m` entries is
  replaced by its transform, and `inPlace_invalid`, one of another length is left
  alone.
-/

namespace Multiprecision.Fermat

open Integer

variable {half i j p blocks : Nat} {root : Int} {signal xs ys : List Integer}

/-! ## Butterflies in turn -/

/-- The two entries that a butterfly at `p` replaces. -/
def pairAt (half p : Nat) (signal : List Integer) : Integer × Integer :=
  (signal.getD p zero, signal.getD (p + half) zero)

/-- The pairs at `i` and at `p` have no entry in common. -/
def Apart (half i p : Nat) : Prop := i ≠ p ∧ i ≠ p + half ∧ i + half ≠ p

theorem Apart.symm (h : Apart half i p) : Apart half p i := ⟨h.1.symm, h.2.2.symm, h.2.1.symm⟩

@[simp] theorem length_combine (butterfly : Integer → Integer → Integer × Integer) (half i : Nat)
    (signal : List Integer) : (combine butterfly half i signal).length = signal.length := by
  simp [combine]

/-- A butterfly leaves the entries outside of its pair alone. -/
theorem getD_combine_of_ne (butterfly : Integer → Integer → Integer × Integer) (hi : i ≠ p)
    (hhalf : i + half ≠ p) : (combine butterfly half i signal).getD p zero = signal.getD p zero := by
  rw [combine, List.getD_eq_getElem?_getD, List.getElem?_set_ne hhalf, List.getElem?_set_ne hi,
    List.getD_eq_getElem?_getD]

/-- A butterfly leaves a pair alone that is apart from its own. -/
theorem pairAt_combine_of_apart (butterfly : Integer → Integer → Integer × Integer)
    (h : Apart half i p) : pairAt half p (combine butterfly half i signal) = pairAt half p signal := by
  obtain ⟨hlow, hcross, hcross'⟩ := h
  rw [pairAt, getD_combine_of_ne _ hlow hcross',
    getD_combine_of_ne _ hcross fun heq => hlow (Nat.add_right_cancel heq), pairAt]

theorem getD_set_self {p : Nat} (hp : p < signal.length) (x : Integer) :
    (signal.set p x).getD p zero = x := by
  rw [List.getD_eq_getElem?_getD, List.getElem?_set_self hp]
  rfl

/-- A butterfly replaces its own pair. -/
theorem pairAt_combine (butterfly : Integer → Integer → Integer × Integer) (hpos : 0 < half)
    (hi : i + half < signal.length) :
    pairAt half i (combine butterfly half i signal) = butterfly.uncurry (pairAt half i signal) := by
  rw [pairAt, combine, getD_set_self (by simpa), List.getD_eq_getElem?_getD,
    List.getElem?_set_ne (by omega), ← List.getD_eq_getElem?_getD, getD_set_self (by omega)]
  rfl

section Traversal

variable {ι : Type} (place : ι → Nat) (butterfly : ι → Integer → Integer → Integer × Integer)
variable {pairs : List ι}

theorem length_foldl_combine (signal : List Integer) :
    (pairs.foldl (fun signal a => combine (butterfly a) half (place a) signal) signal).length =
      signal.length := by
  induction pairs generalizing signal with
  | nil => rfl
  | cons a pairs ih => rw [List.foldl_cons, ih, length_combine]

/-- A pair apart from all that are traversed stays. -/
theorem pairAt_foldl_combine_of_apart (hp : ∀ a ∈ pairs, Apart half (place a) p)
    (signal : List Integer) :
    pairAt half p
        (pairs.foldl (fun signal a => combine (butterfly a) half (place a) signal) signal) =
      pairAt half p signal := by
  induction pairs generalizing signal with
  | nil => rfl
  | cons a pairs ih =>
    rw [List.forall_mem_cons] at hp
    rw [List.foldl_cons, ih hp.2, pairAt_combine_of_apart _ hp.1]

/-- A traversal of pairs that have no entry in common replaces each of them as it
stands in the signal at first. -/
theorem pairAt_foldl_combine (hpos : 0 < half)
    (hapart : pairs.Pairwise fun a b => Apart half (place a) (place b)) {a : ι} (ha : a ∈ pairs)
    (hlt : place a + half < signal.length) :
    pairAt half (place a)
        (pairs.foldl (fun signal a => combine (butterfly a) half (place a) signal) signal) =
      (butterfly a).uncurry (pairAt half (place a) signal) := by
  induction pairs generalizing signal with
  | nil => exact absurd ha List.not_mem_nil
  | cons b pairs ih =>
    obtain ⟨hhead, htail⟩ := List.pairwise_cons.mp hapart
    rw [List.foldl_cons]
    rcases List.mem_cons.mp ha with rfl | ha
    · -- No later pair has an entry of this one.
      rw [pairAt_foldl_combine_of_apart _ _ fun c hc => (hhead c hc).symm,
        pairAt_combine _ hpos hlt]
    · rw [ih htail ha (by rwa [length_combine]), pairAt_combine_of_apart _ (hhead a ha)]

end Traversal

/-! ## A stage -/

/-- The pairs of a stage: a place and, in one of the blocks, the entry there. -/
def stagePairs (half blocks : Nat) : List (Nat × Nat) :=
  (List.range half).flatMap fun j => (List.range' j blocks (2 * half)).map (j, ·)

/-- The two loops of a stage, as one traversal of its pairs. -/
theorem stage_eq_foldl (butterfly : Butterfly) (root : Int) (half : Nat) (signal : List Integer) :
    stage butterfly root half signal =
      (stagePairs half (signal.length / (2 * half))).foldl (fun s a =>
        combine (butterfly (twiddle root signal.length half a.1)) half a.2 s) signal := by
  rw [stagePairs, List.foldl_flatMap]
  simp only [List.foldl_map]
  rfl

@[simp] theorem length_stage (butterfly : Butterfly) (root : Int) (half : Nat)
    (signal : List Integer) : (stage butterfly root half signal).length = signal.length := by
  rw [stage_eq_foldl, length_foldl_combine]

/-- Which pairs a stage has: a place in the first half of a block, and any block. -/
theorem mem_stagePairs {a : Nat × Nat} :
    a ∈ stagePairs half blocks ↔ a.1 < half ∧ ∃ k < blocks, a.2 = a.1 + 2 * half * k := by
  obtain ⟨j, i⟩ := a
  simp only [stagePairs, List.mem_flatMap, List.mem_map, List.mem_range, List.mem_range',
    Prod.mk.injEq]
  constructor
  · rintro ⟨j, hj, i, hi, rfl, rfl⟩
    exact ⟨hj, hi⟩
  · rintro ⟨hj, hi⟩
    exact ⟨j, hj, i, hi, rfl, rfl⟩

/-- The place of an entry in its block. -/
theorem mod_of_mem_stagePairs {a : Nat × Nat} (ha : a ∈ stagePairs half blocks) :
    a.2 % (2 * half) = a.1 ∧ (a.2 + half) % (2 * half) = a.1 + half := by
  obtain ⟨hj, k, -, hi⟩ := mem_stagePairs.mp ha
  rw [hi, Nat.add_right_comm, Nat.add_mul_mod_self_left, Nat.add_mul_mod_self_left]
  exact ⟨Nat.mod_eq_of_lt (by omega), Nat.mod_eq_of_lt (by omega)⟩

/-- A stage visits no pair twice. -/
theorem nodup_stagePairs (half blocks : Nat) : (stagePairs half blocks).Nodup := by
  rw [stagePairs, List.nodup_flatMap]
  refine ⟨fun j hj => ?_, List.nodup_range.imp fun hne => ?_⟩
  · have hj := List.mem_range.mp hj
    exact (List.nodup_range' (2 * half) (by omega)).map fun _ _ => congrArg Prod.snd
  · rw [Function.onFun, List.disjoint_left]
    rintro a ha hb
    obtain ⟨_, -, rfl⟩ := List.mem_map.mp ha
    obtain ⟨_, -, heq⟩ := List.mem_map.mp hb
    exact hne (congrArg Prod.fst heq).symm

/-- No two pairs of a stage have an entry in common, since a low entry has its
place in the first half of a block and a high entry in the second. -/
theorem pairwise_apart (half blocks : Nat) :
    (stagePairs half blocks).Pairwise fun a b => Apart half a.2 b.2 := by
  refine (nodup_stagePairs half blocks).pairwise_of_forall_ne fun a ha b hb hne => ?_
  obtain ⟨halow, hahigh⟩ := mod_of_mem_stagePairs ha
  obtain ⟨hblow, hbhigh⟩ := mod_of_mem_stagePairs hb
  have haplace := (mem_stagePairs.mp ha).1
  have hbplace := (mem_stagePairs.mp hb).1
  refine ⟨fun heq => hne (Prod.ext ?_ heq), fun heq => ?_, fun heq => ?_⟩
  · rw [← halow, heq, hblow]
  · rw [heq, hbhigh] at halow
    omega
  · rw [heq, hblow] at hahigh
    omega

/-- The pairs of block `k` lie in the signal. -/
theorem high_lt_length (hlen : signal.length = blocks * (2 * half)) {k : Nat} (hj : j < half)
    (hk : k < blocks) : j + 2 * half * k + half < signal.length := by
  have hblock : 2 * half * (k + 1) ≤ 2 * half * blocks := Nat.mul_le_mul_left _ hk
  rw [Nat.mul_succ, Nat.mul_comm _ blocks, ← hlen] at hblock
  omega

/-- A stage replaces the entries in place `j` of every block by their butterfly. -/
theorem pairAt_stage (butterfly : Butterfly) (root : Int)
    (hlen : signal.length = blocks * (2 * half)) {k : Nat} (hj : j < half) (hk : k < blocks) :
    pairAt half (j + 2 * half * k) (stage butterfly root half signal) =
      (butterfly (twiddle root signal.length half j)).uncurry
        (pairAt half (j + 2 * half * k) signal) := by
  have hcount : signal.length / (2 * half) = blocks := by
    rw [hlen, Nat.mul_div_cancel _ (by omega)]
  have hmem : (j, j + 2 * half * k) ∈ stagePairs half blocks := mem_stagePairs.mpr ⟨hj, k, hk, rfl⟩
  rw [stage_eq_foldl, hcount]
  exact pairAt_foldl_combine Prod.snd
    (fun a => butterfly (twiddle root signal.length half a.1)) (by omega)
    (pairwise_apart half blocks) hmem (high_lt_length hlen hj hk)

/-! ### Entries by their places -/

/-- Every entry is the low or the high one of some pair. -/
theorem exists_place (hp : p < blocks * (2 * half)) :
    ∃ j < half, ∃ k < blocks, p = j + 2 * half * k ∨ p = j + 2 * half * k + half := by
  have hpos : 0 < 2 * half := by
    rcases Nat.eq_zero_or_pos half with rfl | hhalf
    · simp at hp
    · omega
  have hk := (Nat.div_lt_iff_lt_mul hpos).mpr hp
  have hdm := Nat.mod_add_div p (2 * half)
  have hlt := Nat.mod_lt p hpos
  rcases Nat.lt_or_ge (p % (2 * half)) half with hlow | hhigh
  · exact ⟨_, hlow, _, hk, .inl hdm.symm⟩
  · exact ⟨p % (2 * half) - half, by omega, _, hk, .inr (by omega)⟩

/-- Signals with the same pairs are equal. -/
theorem ext_pairs (hxs : xs.length = blocks * (2 * half)) (hys : ys.length = blocks * (2 * half))
    (h : ∀ j < half, ∀ k < blocks,
      pairAt half (j + 2 * half * k) xs = pairAt half (j + 2 * half * k) ys) : xs = ys := by
  refine List.ext_getElem (hxs.trans hys.symm) fun p hx hy => ?_
  obtain ⟨j, hj, k, hk, hp⟩ := exists_place (hxs ▸ hx)
  have hpair := h j hj k hk
  rw [← List.getD_eq_getElem xs zero hx, ← List.getD_eq_getElem ys zero hy]
  rcases hp with rfl | rfl
  · exact congrArg Prod.fst hpair
  · exact congrArg Prod.snd hpair

/-! ## Halves -/

theorem pairAt_append_left (hp : p + half < xs.length) (ys : List Integer) :
    pairAt half p (xs ++ ys) = pairAt half p xs := by
  rw [pairAt, List.getD_append _ _ _ _ (by omega), List.getD_append _ _ _ _ hp, pairAt]

theorem pairAt_append_right (half p : Nat) (xs ys : List Integer) :
    pairAt half (xs.length + p) (xs ++ ys) = pairAt half p ys := by
  rw [pairAt, Nat.add_assoc, List.getD_append_right _ _ _ _ (by omega),
    List.getD_append_right _ _ _ _ (by omega), Nat.add_sub_cancel_left, Nat.add_sub_cancel_left,
    pairAt]

/-- The pairs of one block. -/
theorem pairAt_halves (hxs : xs.length = half) (hj : j < half) (ys : List Integer) :
    pairAt half j (xs ++ ys) = (xs.getD j zero, ys.getD j zero) := by
  rw [pairAt, List.getD_append _ _ _ _ (hxs ▸ hj), List.getD_append_right _ _ _ _ (by omega), hxs,
    Nat.add_sub_cancel]

/-- In a signal of twice the length, the shift of a place is that for twice the
exponent of the root. -/
theorem twiddle_double (root : Int) {n : Nat} (hdvd : 2 * half ∣ n) (j : Nat) :
    twiddle root (n + n) half j = twiddle (2 * root) n half j := by
  rw [twiddle, twiddle, Nat.add_div_of_dvd_right hdvd, ← two_mul]
  push_cast
  ring

/-- A stage of a signal is a stage of either half, as long as no block crosses
the middle. -/
theorem stage_append (butterfly : Butterfly) (root : Int)
    (hxs : xs.length = blocks * (2 * half)) (hys : ys.length = blocks * (2 * half)) :
    stage butterfly root half (xs ++ ys) =
      stage butterfly (2 * root) half xs ++ stage butterfly (2 * root) half ys := by
  have hlen : (xs ++ ys).length = (blocks + blocks) * (2 * half) := by
    rw [List.length_append, hxs, hys, Nat.add_mul]
  have htwiddle (j : Nat) : twiddle root (xs ++ ys).length half j =
      twiddle (2 * root) (blocks * (2 * half)) half j := by
    rw [hlen, Nat.add_mul, twiddle_double _ (Nat.dvd_mul_left _ _)]
  refine ext_pairs (by rwa [length_stage]) (by simpa using hlen) fun j hj k hk => ?_
  rw [pairAt_stage butterfly root hlen hj hk, htwiddle]
  rcases Nat.lt_or_ge k blocks with hlt | hge
  · have hhigh := high_lt_length hxs hj hlt
    rw [pairAt_append_left hhigh, pairAt_append_left (by rwa [length_stage]),
      pairAt_stage butterfly (2 * root) hxs hj hlt, hxs]
  · obtain ⟨k, rfl⟩ := Nat.exists_eq_add_of_le hge
    have hplace : j + 2 * half * (blocks + k) = xs.length + (j + 2 * half * k) := by
      rw [hxs]
      ring
    have hright := pairAt_append_right half (j + 2 * half * k)
      (stage butterfly (2 * root) half xs) (stage butterfly (2 * root) half ys)
    rw [length_stage] at hright
    rw [hplace, pairAt_append_right, hright,
      pairAt_stage butterfly (2 * root) hys hj (by omega), hys]

/-- The stage of a signal that is one block pairs its halves. -/
theorem stage_halves (butterfly : Butterfly) (root : Int) {us vs : List Integer}
    (hxs : xs.length = half) (hys : ys.length = half) (hus : us.length = half)
    (hvs : vs.length = half)
    (h : ∀ j < half, butterfly (root * j) (xs.getD j zero) (ys.getD j zero) =
      (us.getD j zero, vs.getD j zero)) :
    stage butterfly root half (xs ++ ys) = us ++ vs := by
  have hlen : (xs ++ ys).length = 1 * (2 * half) := by
    rw [List.length_append, hxs, hys]
    ring
  refine ext_pairs (by rwa [length_stage]) (by rw [List.length_append, hus, hvs]; ring)
    fun j hj k hk => ?_
  obtain rfl : k = 0 := by omega
  have htwiddle : twiddle root (1 * (2 * half)) half j = root * j := by
    rw [twiddle, Nat.one_mul, Nat.div_self (by omega), Nat.mul_one]
  rw [pairAt_stage butterfly root hlen hj hk, hlen, htwiddle, Nat.mul_zero, Nat.add_zero,
    pairAt_halves hxs hj, pairAt_halves hus hj]
  exact h j hj

/-! ### One block -/

variable {e m : Nat}

theorem getD_map_canonical (hj : j < xs.length) :
    (xs.map (canonical e)).getD j zero = canonical e (xs.getD j zero) := by
  rw [List.getD_eq_getElem _ _ (by simpa), List.getElem_map, List.getD_eq_getElem _ _ hj]

theorem getD_zipWith (f : Integer → Integer → Integer) (hx : j < xs.length) (hy : j < ys.length) :
    (List.zipWith f xs ys).getD j zero = f (xs.getD j zero) (ys.getD j zero) := by
  rw [List.getD_eq_getElem _ _ (by simp [hx, hy]), List.getElem_zipWith,
    List.getD_eq_getElem _ _ hx, List.getD_eq_getElem _ _ hy]

@[simp] theorem length_twist (e : Nat) (root : Int) (start : Nat) (xs : List Integer) :
    (twist e root start xs).length = xs.length := by
  induction xs generalizing start with
  | nil => rfl
  | cons x xs ih => rw [twist, List.length_cons, ih, List.length_cons]

/-- Entry `j` of a twist is shifted by `start + j` times the root. -/
theorem getD_twist (root : Int) (start : Nat) (hj : j < xs.length) :
    (twist e root start xs).getD j zero =
      shiftRight e (xs.getD j zero) (root * (start + j : Nat)) := by
  induction xs generalizing start j with
  | nil => simp at hj
  | cons x xs ih =>
    cases j with
    | zero => rfl
    | succ j =>
      rw [twist, List.getD_cons_succ, List.getD_cons_succ, ih _ (by simpa using hj),
        Nat.add_right_comm, Nat.add_assoc]

/-- The first stage of a forward transform: sums in the low half, twisted
differences in the high one. -/
theorem stage_forward (root : Int) (hxs : xs.length = half) (hys : ys.length = half) :
    stage (forwardButterfly e) root half (xs ++ ys) =
      List.zipWith (add e) (xs.map (canonical e)) (ys.map (canonical e)) ++
        twist e root 0
          (List.zipWith (sub e) (xs.map (canonical e)) (ys.map (canonical e))) := by
  refine stage_halves _ root hxs hys (by simp [hxs, hys]) (by simp [hxs, hys]) fun j hj => ?_
  rw [getD_zipWith _ (by simpa [hxs]) (by simpa [hys]), getD_twist _ _ (by simp [hxs, hys, hj]),
    getD_zipWith _ (by simpa [hxs]) (by simpa [hys]), getD_map_canonical (hxs ▸ hj),
    getD_map_canonical (hys ▸ hj), Nat.zero_add]
  rfl

/-- The last stage of a backward transform: the high half is twisted first, then
come sums and differences. -/
theorem stage_backward (root : Int) (hxs : xs.length = half) (hys : ys.length = half) :
    stage (backwardButterfly e) root half (xs ++ ys) =
      List.zipWith (add e) (xs.map (canonical e)) ((twist e root 0 ys).map (canonical e)) ++
        List.zipWith (sub e) (xs.map (canonical e)) ((twist e root 0 ys).map (canonical e)) := by
  refine stage_halves _ root hxs hys (by simp [hxs, hys]) (by simp [hxs, hys]) fun j hj => ?_
  rw [getD_zipWith _ (by simpa [hxs]) (by simpa [hys]),
    getD_zipWith _ (by simpa [hxs]) (by simpa [hys]), getD_map_canonical (hxs ▸ hj),
    getD_map_canonical (by simpa [hys]), getD_twist _ _ (hys ▸ hj), Nat.zero_add]
  rfl

/-! ## All stages -/

/-- The stages begin with that of the largest blocks. -/
theorem forwardStages_succ (e m : Nat) (root : Int) (signal : List Integer) :
    forwardStages e (m + 1) root signal =
      forwardStages e m root (stage (forwardButterfly e) root (2 ^ m) signal) := rfl

/-- The stages end with that of the largest blocks. -/
theorem backwardStages_succ (e m : Nat) (root : Int) (signal : List Integer) :
    backwardStages e (m + 1) root signal =
      stage (backwardButterfly e) root (2 ^ m) (backwardStages e m root signal) := rfl

@[simp] theorem length_backwardStages (e m : Nat) (root : Int) (signal : List Integer) :
    (backwardStages e m root signal).length = signal.length := by
  induction m with
  | zero => rfl
  | succ m ih => rw [backwardStages, length_stage, ih]

/-- Stages whose blocks do not cross the middle are stages of either half. -/
theorem forwardStages_append (blocks : Nat) (root : Int) (hxs : xs.length = blocks * 2 ^ m)
    (hys : ys.length = blocks * 2 ^ m) :
    forwardStages e m root (xs ++ ys) =
      forwardStages e m (2 * root) xs ++ forwardStages e m (2 * root) ys := by
  induction m generalizing blocks xs ys with
  | zero => rfl
  | succ m ih =>
    rw [pow_succ'] at hxs hys
    rw [forwardStages_succ, stage_append _ root hxs hys]
    refine ih (blocks * 2) ?_ ?_
    · rw [length_stage, hxs, Nat.mul_assoc]
    · rw [length_stage, hys, Nat.mul_assoc]

/-- The same for the backward transform. -/
theorem backwardStages_append (blocks : Nat) (root : Int) (hxs : xs.length = blocks * 2 ^ m)
    (hys : ys.length = blocks * 2 ^ m) :
    backwardStages e m root (xs ++ ys) =
      backwardStages e m (2 * root) xs ++ backwardStages e m (2 * root) ys := by
  induction m generalizing blocks with
  | zero => rfl
  | succ m ih =>
    rw [pow_succ'] at hxs hys
    rw [backwardStages_succ, ih (blocks * 2) (by rw [hxs, Nat.mul_assoc])
      (by rw [hys, Nat.mul_assoc])]
    exact stage_append _ root (by rwa [length_backwardStages]) (by rwa [length_backwardStages])

/-- The forward transform of a signal by its halves. -/
theorem forward_append (root : Int) (hxs : xs.length = 2 ^ m) (ys : List Integer) :
    forward e (m + 1) root (xs ++ ys) =
      forward e m (2 * root)
          (List.zipWith (add e) (xs.map (canonical e)) (ys.map (canonical e))) ++
        forward e m (2 * root)
          (twist e root 0 (List.zipWith (sub e) (xs.map (canonical e)) (ys.map (canonical e)))) := by
  have hcut : (xs.map (canonical e)).length = Nat.pow 2 m := by simpa
  rw [forward, List.map_append, List.take_left' hcut, List.drop_left' hcut]

/-- The backward transform of a spectrum by its halves. -/
theorem backward_append (root : Int) (hxs : xs.length = 2 ^ m) (ys : List Integer) :
    backward e (m + 1) root (xs ++ ys) =
      List.zipWith (add e) ((backward e m (2 * root) xs).map (canonical e))
          ((twist e root 0 (backward e m (2 * root) ys)).map (canonical e)) ++
        List.zipWith (sub e) ((backward e m (2 * root) xs).map (canonical e))
          ((twist e root 0 (backward e m (2 * root) ys)).map (canonical e)) := by
  have hcut : xs.length = Nat.pow 2 m := hxs
  rw [backward, List.take_left' hcut, List.drop_left' hcut]

/-- The halves of a signal of `2^(m + 1)` entries. -/
theorem exists_halves (h : signal.length = 2 ^ (m + 1)) :
    ∃ xs ys, signal = xs ++ ys ∧ xs.length = 2 ^ m ∧ ys.length = 2 ^ m := by
  rw [pow_succ] at h
  refine ⟨signal.take (2 ^ m), signal.drop (2 ^ m), (List.take_append_drop _ _).symm, ?_, ?_⟩
  · rw [List.length_take]
    omega
  · rw [List.length_drop]
    omega

/-- The stages from one block down are the forward transform. -/
theorem forwardStages_eq (root : Int) (h : signal.length = 2 ^ m) :
    forwardStages e m root signal = forward e m root signal := by
  induction m generalizing root signal with
  | zero => rfl
  | succ m ih =>
    obtain ⟨xs, ys, rfl, hxs, hys⟩ := exists_halves h
    rw [forwardStages_succ, stage_forward root hxs hys,
      forwardStages_append 1 root (by simp [hxs, hys]) (by simp [hxs, hys]),
      ih _ (by simp [hxs, hys]), ih _ (by simp [hxs, hys]), forward_append root hxs]

/-- The stages up to one block are the backward transform. -/
theorem backwardStages_eq (root : Int) (h : signal.length = 2 ^ m) :
    backwardStages e m root signal = backward e m root signal := by
  induction m generalizing root signal with
  | zero => rfl
  | succ m ih =>
    obtain ⟨xs, ys, rfl, hxs, hys⟩ := exists_halves h
    rw [backwardStages_succ, backwardStages_append 1 root (by simpa) (by simpa),
      stage_backward root (by simpa) (by simpa), ih _ hxs, ih _ hys, backward_append root hxs]

/-! ## Signals of any length -/

/-- The forward transform in place is that which splits the signal in halves. -/
theorem scrambleInPlace_eq (h : xs.length = 2 ^ m) (root : Int) :
    scrambleInPlace e xs root = (forward e m root xs, .ok ()) := by
  rw [scrambleInPlace, inPlace, onSignal_of_length _ h, forwardStages_eq root h]

/-- The backward transform in place is that which splits the signal in halves. -/
theorem unscrambleInPlace_eq (h : xs.length = 2 ^ m) (root : Int) :
    unscrambleInPlace e xs root = (backward e m root xs, .ok ()) := by
  rw [unscrambleInPlace, inPlace, onSignal_of_length _ h, backwardStages_eq root h]

/-- Only powers of two have a logarithm. -/
theorem log2?_eq_none {n : Nat} (h : ∀ m, n ≠ 2 ^ m) : log2? n = none := if_neg (h _)

/-- A signal whose length is no power of two stays as it is. -/
theorem inPlace_invalid (transform : Nat → Int → List Integer → List Integer)
    (h : ∀ m, xs.length ≠ 2 ^ m) (root : Int) :
    inPlace transform xs root = (xs, .error (.invalidArgument
      ("transform length " ++ Nat.repr xs.length ++ " is not a power of two"))) := by
  rw [inPlace, onSignal, log2?_eq_none h]

end Multiprecision.Fermat
